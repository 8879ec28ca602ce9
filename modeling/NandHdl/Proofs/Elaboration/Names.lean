-- SUMMARY: Names of bits and members do not collide (`bitName_inj`, `memberName_inj`), and what a scope answers after a binding.
import NandHdl.Width
import Mathlib.Data.List.Basic
import Std.Data.String.ToNat

/-!
# Names in scopes

A scope keeps names, bits of buses and further outputs of instances in one table. If no name holds
the sign `[`, the bits of two names are kept apart, and so are they from the names. If no name holds
the sign `.` either, the same is true of further outputs.
-/

namespace NandHdl

/-! ## Composed names -/

/-- A name that is no name of a bit. -/
def Unindexed (name : String) : Prop := '[' ∉ name.toList

/-- A name that is neither the name of a bit nor that of a further output. -/
def PlainName (name : String) : Prop := Unindexed name ∧ '.' ∉ name.toList

instance (name : String) : Decidable (Unindexed name) :=
  inferInstanceAs (Decidable ('[' ∉ name.toList))

instance (name : String) : Decidable (PlainName name) :=
  inferInstanceAs (Decidable (Unindexed name ∧ '.' ∉ name.toList))

/-- A sign that stands in neither of two texts tells where they end. -/
theorem append_cons_inj {α : Type} {c : α} {xs ys xs' ys' : List α} (hxs : c ∉ xs) (hys : c ∉ ys)
    (h : xs ++ c :: xs' = ys ++ c :: ys') : xs = ys ∧ xs' = ys' := by
  induction xs generalizing ys with
  | nil =>
    cases ys with
    | nil => simpa using h
    | cons y ys =>
      obtain ⟨rfl, -⟩ := List.cons.inj h
      exact absurd List.mem_cons_self hys
  | cons x xs ih =>
    cases ys with
    | nil =>
      obtain ⟨rfl, -⟩ := List.cons.inj h
      exact absurd List.mem_cons_self hxs
    | cons y ys =>
      obtain ⟨rfl, htail⟩ := List.cons.inj h
      obtain ⟨rfl, hrest⟩ := ih (fun hc => hxs (List.mem_cons_of_mem _ hc))
        (fun hc => hys (List.mem_cons_of_mem _ hc)) htail
      exact ⟨rfl, hrest⟩

theorem toList_bitName (name : String) (i : Nat) :
    (bitName name i).toList = name.toList ++ '[' :: ((toString i).toList ++ [']']) := by
  simp [bitName]

theorem toList_memberName (object field : String) :
    (memberName object field).toList = object.toList ++ '.' :: field.toList := by
  simp [memberName]

theorem isDigit_of_mem_toString {k : Nat} {c : Char} (h : c ∈ (toString k).toList) :
    c.isDigit = true := by
  rw [Nat.toString_eq_repr, Nat.repr_eq_ofList_toDigits, String.toList_ofList] at h
  exact Nat.isDigit_of_mem_toDigits (by decide) (by decide) h

/-- A sign that is no digit and no underscore does not come in with a number. -/
theorem not_mem_append_digits {x : String} {c : Char} (hdigit : c.isDigit = false) (hne : c ≠ '_')
    (hx : c ∉ x.toList) (k : Nat) : c ∉ (x ++ "_" ++ toString k).toList := by
  intro hmem
  rw [String.toList_append, String.toList_append, List.mem_append, List.mem_append] at hmem
  rcases hmem with (hmem | hmem) | hmem
  · exact hx hmem
  · exact hne (List.mem_singleton.1 hmem)
  · rw [isDigit_of_mem_toString hmem] at hdigit
    exact nomatch hdigit

/-- Different names have different bits, whatever the names are: what stands before the last sign `[`
is the name. -/
theorem bitName_inj {a b : String} {i j : Nat} : bitName a i = bitName b j ↔ a = b ∧ i = j := by
  constructor
  · intro h
    have hdigits : ∀ n : Nat, '[' ∉ ']' :: (toString n).toList.reverse := by
      intro n hmem
      rw [List.mem_cons, List.mem_reverse] at hmem
      have hdigit := isDigit_of_mem_toString (hmem.resolve_left (by decide))
      exact absurd hdigit (by decide)
    have hlist := congrArg (fun x : String => x.toList.reverse) h
    simp only [toList_bitName, List.reverse_append, List.reverse_cons, List.append_assoc,
      List.singleton_append, List.reverse_nil, List.nil_append] at hlist
    obtain ⟨hindex, hname⟩ := append_cons_inj (hdigits i) (hdigits j) hlist
    have hnumber : toString i = toString j :=
      String.toList_inj.1 (List.reverse_injective (List.cons.inj hindex).2)
    exact ⟨String.toList_inj.1 (List.reverse_injective hname), Nat.repr_injective hnumber⟩
  · rintro ⟨rfl, rfl⟩
    rfl

/-- A sign that is no digit and no bracket does not come in with the number of a bit. -/
theorem not_mem_bitName {x : String} {c : Char} (hdigit : c.isDigit = false) (hopen : c ≠ '[')
    (hclose : c ≠ ']') (hx : c ∉ x.toList) (i : Nat) : c ∉ (bitName x i).toList := by
  intro hmem
  rw [toList_bitName, List.mem_append, List.mem_cons, List.mem_append, List.mem_singleton] at hmem
  rcases hmem with hmem | hmem | hmem | hmem
  · exact hx hmem
  · exact hopen hmem
  · rw [isDigit_of_mem_toString hmem] at hdigit
    exact nomatch hdigit
  · exact hclose hmem

theorem bitName_ne_self (name : String) (i : Nat) : bitName name i ≠ name := by
  intro h
  have hlength := congrArg (fun x : String => x.toList.length) h
  simp only [toList_bitName, List.length_append, List.length_cons] at hlength
  omega

theorem bitName_ne {a : String} (ha : Unindexed a) (name : String) (i : Nat) :
    bitName name i ≠ a := by
  intro h
  apply ha
  rw [← h, toList_bitName]
  simp

theorem memberName_inj {a b f g : String} (ha : PlainName a) (hb : PlainName b) :
    memberName a f = memberName b g ↔ a = b ∧ f = g := by
  constructor
  · intro h
    have hlist := congrArg String.toList h
    rw [toList_memberName, toList_memberName] at hlist
    obtain ⟨hobject, hfield⟩ := append_cons_inj ha.2 hb.2 hlist
    exact ⟨String.toList_inj.1 hobject, String.toList_inj.1 hfield⟩
  · rintro ⟨rfl, rfl⟩
    rfl

/-- Without points in its parts a composed name tells what it is a member of. -/
theorem memberName_left_inj {a b f g : String} (hb : '.' ∉ b.toList) (hg : '.' ∉ g.toList)
    (h : memberName a f = memberName b g) : a = b := by
  have hlist := congrArg String.toList h
  rw [toList_memberName, toList_memberName] at hlist
  have hcount := congrArg (List.count '.') hlist
  rw [List.count_append, List.count_append, List.count_cons_self, List.count_cons_self,
    List.count_eq_zero.2 hb, List.count_eq_zero.2 hg] at hcount
  have ha : '.' ∉ a.toList := List.count_eq_zero.1 (by omega)
  exact String.toList_inj.1 (append_cons_inj ha hb hlist).1

/-- A bit of a member is named as a member that is a bit. -/
theorem bitName_memberName (object field : String) (i : Nat) :
    bitName (memberName object field) i = memberName object (bitName field i) := by
  apply String.toList_inj.1
  simp [toList_bitName, toList_memberName]

theorem memberName_ne {a : String} (ha : PlainName a) (object field : String) :
    memberName object field ≠ a := by
  intro h
  apply ha.2
  rw [← h, toList_memberName]
  simp

theorem PlainName.unindexed_memberName {a f : String} (ha : PlainName a) (hf : PlainName f) :
    Unindexed (memberName a f) := by
  have hnot := not_or.2 ⟨ha.1, hf.1⟩
  simpa [Unindexed, toList_memberName] using hnot

/-! ## Bindings -/

namespace Scope

variable {s : Scope} {name x : String} {bits : Bits}

theorem getElem?_bindFrom_of_ne (h : ∀ i, bitName name i ≠ x) (signals : NameMap SignalId)
    (start : Nat) (bits : Bits) : (bindFrom name signals start bits)[x]? = signals[x]? := by
  induction bits generalizing signals start with
  | nil => rfl
  | cons id rest ih =>
    rw [bindFrom, ih, Std.TreeMap.getElem?_insert]
    simp [Std.LawfulEqCmp.compare_eq_iff_eq, h start]

theorem getElem?_bindFrom (signals : NameMap SignalId) (start : Nat) (bits : Bits) (i : Nat) :
    (bindFrom name signals start bits)[bitName name i]? =
      (if start ≤ i then bits[i - start]? else none).or signals[bitName name i]? := by
  induction bits generalizing signals start with
  | nil => simp [bindFrom]
  | cons id rest ih =>
    rw [bindFrom, ih, Std.TreeMap.getElem?_insert]
    simp only [Std.LawfulEqCmp.compare_eq_iff_eq, bitName_inj, true_and]
    rcases Nat.lt_trichotomy i start with hlt | rfl | hlt
    · simp [Nat.not_le.2 hlt, Nat.not_le.2 (Nat.lt_succ_of_lt hlt), Nat.ne_of_gt hlt]
    · simp only [if_neg (Nat.not_succ_le_self i), if_pos (Nat.le_refl i), Nat.sub_self,
        List.getElem?_cons_zero, Option.none_or, Option.some_or, if_true]
    · have hsub : i - start = i - (start + 1) + 1 := by omega
      simp [hsub, Nat.le_of_lt hlt, Nat.succ_le_of_lt hlt, Nat.ne_of_lt hlt]

theorem bits?_of_bus {w : Nat} (h : s.buses[name]? = some w) :
    s.bits? name = (List.range w).mapM fun i => s.lookup? (bitName name i) := by
  rw [bits?, h]

theorem bits?_of_scalar (h : s.buses[name]? = none) :
    s.bits? name = (s.lookup? name).map fun id => [id] := by
  rw [bits?, h]

theorem mapM_eq_some {α : Type} {f : α → Option SignalId} {l : List α} {bits : Bits} :
    l.mapM f = some bits ↔ l.map f = bits.map some := by
  induction l generalizing bits with
  | nil => cases bits <;> simp
  | cons a rest ih =>
    cases bits with
    | nil => simp [List.mapM_cons, Option.bind_eq_some_iff]
    | cons id bits => simp [List.mapM_cons, Option.bind_eq_some_iff, ih]

theorem bits?_eq_some_of_bus {w : Nat} (h : s.buses[name]? = some w) :
    s.bits? name = some bits ↔
      bits.length = w ∧ ∀ i < w, s.lookup? (bitName name i) = bits[i]? := by
  rw [bits?_of_bus h, mapM_eq_some]
  constructor
  · intro heq
    have hlength := congrArg List.length heq
    simp only [List.length_map, List.length_range] at hlength
    refine ⟨hlength.symm, fun i hi => ?_⟩
    have hget := congrArg (·[i]?) heq
    simpa [hi, hlength ▸ hi] using hget
  · rintro ⟨rfl, hbits⟩
    refine List.ext_getElem (by simp) fun i hi _ => ?_
    have hlt : i < bits.length := by simpa using hi
    simpa [hlt] using hbits i hlt

/-- A name has as many bits as the scope says. -/
theorem length_of_bits? (h : s.bits? name = some bits) : bits.length = s.widthOf name := by
  rw [widthOf, Std.TreeMap.getD_eq_getD_getElem?]
  cases hbus : s.buses[name]? with
  | none =>
    rw [bits?_of_scalar hbus, Option.map_eq_some_iff] at h
    obtain ⟨id, -, rfl⟩ := h
    rfl
  | some w => exact ((bits?_eq_some_of_bus hbus).1 h).1

/-- The answer for a name depends on its width, on its signal and on those of its bits. -/
theorem bits?_congr {s' : Scope} (hbus : s'.buses[x]? = s.buses[x]?)
    (hname : s'.signals[x]? = s.signals[x]?)
    (hbits : ∀ i, s'.signals[bitName x i]? = s.signals[bitName x i]?) : s'.bits? x = s.bits? x := by
  unfold bits? lookup?
  rw [hbus, hname]
  simp only [hbits]

theorem bits?_bind_self (hbits : bits ≠ []) :
    (s.bind name bits).bits? name = some bits := by
  match bits with
  | [id] => simp [bind, bits?, lookup?]
  | id :: id' :: rest =>
    have hself : ∀ i, name ≠ bitName name i := fun i h => bitName_ne_self name i h.symm
    rw [bits?_eq_some_of_bus (w := rest.length + 2) (by simp [bind])]
    refine ⟨rfl, fun i hi => ?_⟩
    have hlt : i < (id :: id' :: rest).length := hi
    simp only [lookup?, bind, Std.TreeMap.getElem?_insert, Std.LawfulEqCmp.compare_eq_iff_eq,
      if_neg (hself i), getElem?_bindFrom, Nat.zero_le, if_true, Nat.sub_zero,
      List.getElem?_eq_getElem hlt, Option.some_or]

/-- Neither of the names is the other or a bit of it. -/
structure NamesApart (name x : String) : Prop where
  ne : name ≠ x
  bit_ne : ∀ i, bitName name i ≠ x
  ne_bit : ∀ i, name ≠ bitName x i

theorem namesApart_of_ne (hx : Unindexed x) (hname : Unindexed name) (hne : name ≠ x) :
    NamesApart name x :=
  ⟨hne, bitName_ne hx name, fun i h => bitName_ne hname x i h.symm⟩

/-- A binding changes nothing but the name and its bits. -/
theorem bind_of_apart (h : NamesApart name x) (bits : Bits) :
    (s.bind name bits).buses[x]? = s.buses[x]? ∧ (s.bind name bits).signals[x]? = s.signals[x]? ∧
      ∀ j, (s.bind name bits).signals[bitName x j]? = s.signals[bitName x j]? := by
  obtain ⟨hne, hx, hself⟩ := h
  have hbit : ∀ i j, bitName name i ≠ bitName x j := fun i j h =>
    hne (bitName_inj.1 h).1
  match bits with
  | [] =>
    refine ⟨?_, rfl, fun _ => rfl⟩
    simp [bind, Std.TreeMap.getElem?_erase, Std.LawfulEqCmp.compare_eq_iff_eq, hne]
  | [id] =>
    refine ⟨?_, ?_, fun j => ?_⟩
    · simp [bind, Std.TreeMap.getElem?_erase, Std.LawfulEqCmp.compare_eq_iff_eq, hne]
    · simp [bind, Std.TreeMap.getElem?_insert, Std.LawfulEqCmp.compare_eq_iff_eq, hne]
    · simp [bind, Std.TreeMap.getElem?_insert, Std.LawfulEqCmp.compare_eq_iff_eq, hself]
  | id :: id' :: rest =>
    refine ⟨?_, ?_, fun j => ?_⟩
    · simp [bind, Std.TreeMap.getElem?_insert, Std.LawfulEqCmp.compare_eq_iff_eq, hne]
    · simp only [bind, Std.TreeMap.getElem?_insert, Std.LawfulEqCmp.compare_eq_iff_eq, if_neg hne]
      exact getElem?_bindFrom_of_ne hx _ _ _
    · simp only [bind, Std.TreeMap.getElem?_insert, Std.LawfulEqCmp.compare_eq_iff_eq,
        if_neg (hself j)]
      exact getElem?_bindFrom_of_ne (fun i => hbit i j) _ _ _

theorem bits?_bind_of_apart (h : NamesApart name x) (bits : Bits) :
    (s.bind name bits).bits? x = s.bits? x := by
  obtain ⟨hbus, hsignal, hbits⟩ := bind_of_apart (s := s) h bits
  exact bits?_congr hbus hsignal hbits

/-- A binding changes nothing that belongs to another name. -/
theorem bind_of_ne (hx : Unindexed x) (hname : Unindexed name) (hne : name ≠ x) (bits : Bits) :
    (s.bind name bits).buses[x]? = s.buses[x]? ∧ (s.bind name bits).signals[x]? = s.signals[x]? ∧
      ∀ j, (s.bind name bits).signals[bitName x j]? = s.signals[bitName x j]? :=
  bind_of_apart (namesApart_of_ne hx hname hne) bits

theorem bits?_bind_of_ne (hx : Unindexed x) (hname : Unindexed name) (hne : name ≠ x)
    (bits : Bits) : (s.bind name bits).bits? x = s.bits? x :=
  bits?_bind_of_apart (namesApart_of_ne hx hname hne) bits

theorem owner_bind (s : Scope) (x : String) (bits : Bits) : (s.bind x bits).owner = s.owner := by
  match bits with
  | [] | [_] | _ :: _ :: _ => rfl

theorem isPort_bind (s : Scope) (x : String) (bits : Bits) :
    (s.bind x bits).isPort = s.isPort := by
  match bits with
  | [] | [_] | _ :: _ :: _ => rfl

theorem namePrefix_bind (s : Scope) (x : String) (bits : Bits) :
    (s.bind x bits).namePrefix = s.namePrefix := by
  match bits with
  | [] | [_] | _ :: _ :: _ => rfl

/-- A name is a bus if it is bound to several bits. -/
theorem buses_bind_self (s : Scope) (name : String) (bits : Bits) :
    (s.bind name bits).buses[name]? = if 1 < bits.length then some bits.length else none := by
  match bits with
  | [] => simp [bind]
  | [id] => simp [bind]
  | id :: id' :: rest => simp [bind]

theorem buses_bind (s : Scope) (x z : String) (bits : Bits) : (s.bind x bits).buses[z]? =
    if x = z then if 1 < bits.length then some bits.length else none else s.buses[z]? := by
  by_cases heq : x = z
  · rw [if_pos heq, ← heq, buses_bind_self]
  · rw [if_neg heq]
    match bits with
    | [] | [_] | _ :: _ :: _ =>
      simp [bind, Std.TreeMap.getElem?_erase, Std.TreeMap.getElem?_insert,
        Std.LawfulEqCmp.compare_eq_iff_eq, heq]

/-- The entry for `z` that a binding of `x` makes. -/
def entryOf (x : String) (bits : Bits) (z : String) : Option SignalId :=
  ((top "").bind x bits).lookup? z

theorem getElem?_bindFrom_or (x z : String) (signals : NameMap SignalId) (start : Nat)
    (bits : Bits) : (bindFrom x signals start bits)[z]? =
      (bindFrom x {} start bits)[z]?.or signals[z]? := by
  induction bits generalizing signals start with
  | nil => simp [bindFrom]
  | cons i rest ih =>
    rw [bindFrom, bindFrom, ih, ih (({} : NameMap SignalId).insert _ _), Option.or_assoc]
    congr 1
    rw [Std.TreeMap.getElem?_insert, Std.TreeMap.getElem?_insert]
    split <;> simp

theorem lookup?_bind (s : Scope) (x : String) (bits : Bits) (z : String) :
    (s.bind x bits).lookup? z = (entryOf x bits z).or (s.lookup? z) := by
  match bits with
  | [] => simp [entryOf, bind, lookup?, top]
  | [i] =>
    simp only [entryOf, bind, lookup?, top, Std.TreeMap.getElem?_insert]
    split <;> simp
  | i :: j :: rest =>
    simp only [entryOf, bind, lookup?, top, Std.TreeMap.getElem?_insert]
    split
    · rfl
    · exact getElem?_bindFrom_or x z s.signals 0 _

/-- A binding has entries for the name and for its bits. -/
theorem entryOf_of_ne {x z : String} (hz : z ≠ x) (hbit : ∀ i, bitName x i ≠ z) (bits : Bits) :
    entryOf x bits z = none := by
  match bits with
  | [] => simp [entryOf, bind, lookup?, top]
  | [i] => simp [entryOf, bind, lookup?, top, Std.LawfulEqCmp.compare_eq_iff_eq, hz.symm]
  | i :: j :: rest =>
    simp only [entryOf, bind, lookup?, top, Std.TreeMap.getElem?_insert,
      Std.LawfulEqCmp.compare_eq_iff_eq, hz.symm, if_false]
    rw [getElem?_bindFrom_of_ne hbit]
    exact Std.TreeMap.getElem?_emptyc

end Scope

end NandHdl
