-- SUMMARY: Decoders find what was written: plain values are readable as far as they may be opened (`Plain.readable`), and records and lists give their parts back.
import NandHdl.Json.Decode
import NandHdl.Proofs.Json.Values

/-!
# Decoding written values

A decoder takes one opening for each array and object that it meets, as the depth of a value counts
them. It finds each field of a record under its name, because the names of a record are different.
-/

namespace NandHdl.Json

/-! ## Depth -/

mutual

/-- How many arrays and objects of the value are open at once. -/
def depth : Json → Nat
  | .array items => depthItems items + 1
  | .object fields => depthFields fields + 1
  | .null | .bool _ | .number _ | .string _ => 0

/-- How many arrays and objects of the items are open at once. -/
def depthItems : List Json → Nat
  | [] => 0
  | item :: rest => max item.depth (depthItems rest)

/-- How many arrays and objects of the fields are open at once. -/
def depthFields : List (Json.Text × Json) → Nat
  | [] => 0
  | (_, value) :: rest => max value.depth (depthFields rest)

end

/-- An array takes one opening, and its items share the others. -/
theorem depth_array_le {items : List Json} {left : Nat} :
    (Json.array items).depth ≤ left ↔
      ∃ inside, left = inside + 1 ∧ ∀ item ∈ items, item.depth ≤ inside := by
  have hitems : ∀ inside, depthItems items ≤ inside ↔ ∀ item ∈ items, item.depth ≤ inside := by
    intro inside
    induction items with
    | nil => simp [depthItems]
    | cons item rest ih => rw [depthItems, Nat.max_le, ih, List.forall_mem_cons]
  rw [depth]
  constructor
  · intro h
    obtain ⟨inside, rfl⟩ : ∃ inside, left = inside + 1 := Nat.exists_eq_add_one.2 (by omega)
    exact ⟨inside, rfl, (hitems inside).1 (Nat.le_of_succ_le_succ h)⟩
  · rintro ⟨inside, rfl, h⟩
    exact Nat.succ_le_succ ((hitems inside).2 h)

theorem depth_ofFields_le {fields : List (String × Json)} {left : Nat} :
    (ofFields fields).depth ≤ left ↔
      ∃ inside, left = inside + 1 ∧ ∀ f ∈ fields, f.2.depth ≤ inside := by
  have hfields : (ofFields fields).depth = (Json.array (fields.map Prod.snd)).depth := by
    rw [ofFields, depth, depth]
    congr 1
    induction fields with
    | nil => rfl
    | cons f rest ih => rw [List.map_cons, List.map_cons, depthFields, depthItems, ih]
  rw [hfields, depth_array_le]
  simp only [List.forall_mem_map]

/-! ## Readable values -/

theorem le_foldl_digits (n : Nat) (digits : List Nat) :
    n ≤ digits.foldl (fun n d => 10 * n + d) n := by
  induction digits generalizing n with
  | nil => exact Nat.le_refl n
  | cons d rest ih => exact Nat.le_trans (by omega) (ih (10 * n + d))

/-- A number that fits in 64 bits is collected with all its digits. -/
theorem collect_digits {n taken : Nat} {digits : List Nat}
    (h : digits.foldl (fun n d => 10 * n + d) n ≤ Numeral.maxCount) :
    (Double.collect n taken digits).2 = taken + digits.length := by
  induction digits generalizing n taken with
  | nil => rfl
  | cons d rest ih =>
    have hfits := Nat.le_trans (le_foldl_digits (10 * n + d) rest) h
    rw [Double.collect, if_pos hfits, ih h, List.length_cons, Nat.add_right_comm, Nat.add_assoc]

theorem readable_ofNat {left k : Nat} (h : k ≤ Numeral.maxCount) :
    readable left (.ofNat k) = true := by
  have hdigits : (Numeral.digitsOf k).foldl (fun n d => 10 * n + d) 0 = k := ofDigits_toDigits k
  have hall : (Double.collect 0 0 (Numeral.digitsOf k)).2 = 0 + (Numeral.digitsOf k).length :=
    collect_digits (Nat.le_trans (Nat.le_of_eq hdigits) h)
  simp [readable, ofNat, Numeral.ofNat, Double.ofNumeral?, Double.collect, hall]

theorem readableItems_eq_true {left : Nat} {items : List Json} :
    readableItems left items = true ↔ ∀ item ∈ items, item.readable left = true := by
  induction items with
  | nil => simp [readableItems]
  | cons item rest ih => rw [readableItems, Bool.and_eq_true, ih, List.forall_mem_cons]

theorem readable_ofFields_eq_true {left : Nat} {fields : List (String × Json)} :
    (ofFields fields).readable (left + 1) = true ↔ ∀ f ∈ fields, f.2.readable left = true := by
  rw [ofFields, readable]
  induction fields with
  | nil => simp [readableFields]
  | cons f rest ih =>
    rw [List.map_cons, readableFields, Bool.and_eq_true, ih, List.forall_mem_cons]
    rfl

/-- A plain value is readable if all its arrays and objects may be opened. -/
theorem Plain.readable {j : Json} (h : j.Plain) {left : Nat} (hdepth : j.depth ≤ left) :
    j.readable left = true := by
  induction h generalizing left with
  | null => simp [Json.readable]
  | bool b => simp [Json.readable]
  | count hk => exact readable_ofNat hk
  | text s => simp [ofString, Json.readable]
  | array _ ih =>
    obtain ⟨inside, rfl, hitems⟩ := depth_array_le.1 hdepth
    rw [Json.readable, readableItems_eq_true]
    exact fun item hitem => ih item hitem (hitems item hitem)
  | object _ ih =>
    obtain ⟨inside, rfl, hfields⟩ := depth_ofFields_le.1 hdepth
    rw [readable_ofFields_eq_true]
    exact fun f hf => ih f hf (hfields f hf)

/-! ## Records -/

theorem mapM_map_eq_some {α β γ : Type} {f : α → β} {g : β → Option γ} {h : α → γ} {xs : List α}
    (hxs : ∀ x ∈ xs, g (f x) = some (h x)) : (xs.map f).mapM g = some (xs.map h) := by
  induction xs with
  | nil => rfl
  | cons x rest ih =>
    rw [List.forall_mem_cons] at hxs
    rw [List.map_cons, List.mapM_cons, hxs.1, ih hxs.2]
    rfl

theorem named?_map (fields : List (String × Json)) :
    named? (fields.map fun (name, value) => (some name, value)) = some fields := by
  have hnamed := mapM_map_eq_some (f := fun f : String × Json => (some f.1, f.2))
    (g := fun f : Json.Text × Json => f.1.map fun n => (n, f.2)) (h := id)
    fun f (_ : f ∈ fields) => rfl
  rwa [List.map_id] at hnamed

/-- A field that stands once is found under its name. -/
theorem field?_of_mem {fields : List (String × Json)} (hnodup : (fields.map Prod.fst).Nodup)
    {f : String × Json} (hf : f ∈ fields) : field? fields f.1 = some (some f.2) := by
  have hfilter : fields.filter (·.1 == f.1) = [f] := by
    induction fields with
    | nil => exact nomatch hf
    | cons g rest ih =>
      obtain ⟨hfresh, hrest⟩ := List.nodup_cons.1 hnodup
      rcases List.mem_cons.1 hf with rfl | hf
      · rw [List.filter_cons_of_pos (by exact beq_self_eq_true _), List.filter_eq_nil_iff.2]
        exact fun g hg heq => hfresh (List.mem_map.2 ⟨g, hg, beq_iff_eq.1 heq⟩)
      · rw [List.filter_cons_of_neg, ih hrest hf]
        exact fun heq => hfresh (List.mem_map.2 ⟨f, hf, (beq_iff_eq.1 heq).symm⟩)
  rw [field?, hfilter]

/-- A record is read from an object that has its fields, each once and in their order. -/
theorem record?_ofFields {names : List String} {fields : List (String × Json)} {left : Nat}
    (hnodup : names.Nodup) (hnames : fields.map Prod.fst = names) :
    record? names (left + 1) (ofFields fields) = some (left, fields.map fun f => some f.2) := by
  subst hnames
  have hfields := mapM_map_eq_some (f := Prod.fst) (g := field? fields)
    (h := fun f => some f.2) fun f hf => field?_of_mem hnodup hf
  simp only [record?, ofFields, named?_map, Option.bind_eq_bind, Option.bind_some, hfields]
  rfl

theorem list?_ofList {α : Type} {encode : α → Json} {decode : Nat → Json → Option α} {xs : List α}
    {left : Nat} (hdepth : (ofList encode xs).depth ≤ left)
    (h : ∀ x ∈ xs, ∀ inside, (encode x).depth ≤ inside → decode inside (encode x) = some x) :
    list? decode left (ofList encode xs) = some xs := by
  obtain ⟨inside, rfl, hitems⟩ := depth_array_le.1 hdepth
  have hxs := mapM_map_eq_some (f := encode) (g := decode inside) (h := id)
    fun x (hx : x ∈ xs) => h x hx inside (hitems _ (List.mem_map_of_mem hx))
  rwa [List.map_id] at hxs

theorem count?_ofNat {k : Nat} (h : k ≤ Numeral.maxCount) : (ofNat k).count? = some k := by
  have hfits : ¬k > Numeral.maxCount := Nat.not_lt.2 h
  simp [count?, ofNat, Numeral.ofNat, Numeral.count?, hfits]

theorem toNat_le_maxCount (value : UInt64) : value.toNat ≤ Numeral.maxCount :=
  Nat.le_pred_of_lt value.toNat_lt

theorem word?_ofNat (value : UInt64) : (ofNat value.toNat).word? = some value := by
  rw [word?, count?_ofNat (toNat_le_maxCount value), Option.map_some, UInt64.ofNat_toNat]

end NandHdl.Json
