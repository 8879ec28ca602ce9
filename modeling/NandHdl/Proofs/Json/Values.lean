-- SUMMARY: Values of counts and texts are read back from the text that is written for them (`parse?_compress`).
import NandHdl.Proofs.Json.Literals

/-!
# Values

The text of a value begins with a character that no other kind of value begins with, and it can be
followed by nothing but the end of an item. So the reader makes the choices that the writer made. It
may take two steps for each character, which is enough: an item takes one step more than its value,
and there is a bracket or a comma for it.
-/

namespace NandHdl.Json

/-! ## Plain values -/

/-- All numbers of the value are counts, and all its string literals are texts. -/
inductive Plain : Json → Prop where
  | null : Plain .null
  | bool (b : Bool) : Plain (.bool b)
  | count {k : Nat} (h : k ≤ Numeral.maxCount) : Plain (.ofNat k)
  | text (s : String) : Plain (.ofString s)
  | array {items : List Json} (h : ∀ item ∈ items, Plain item) : Plain (.array items)
  | object {fields : List (String × Json)} (h : ∀ f ∈ fields, Plain f.2) : Plain (.ofFields fields)

/-! ## Steps of the reader -/

section

variable {steps : Nat} {c : Char} {cs rest left : List Char} {item value : Json}

theorem skipBlanks_cons (h : isBlank c = false) : skipBlanks (c :: cs) = c :: cs := by
  rw [skipBlanks, List.dropWhile_cons_of_neg (by rw [h]; decide)]

theorem readValue_atom (hblank : isBlank c = false) (hquote : c ≠ '"') (hbracket : c ≠ '[')
    (hbrace : c ≠ '\x7b') : readValue (steps + 1) (c :: cs) = readAtom (c :: cs) := by
  rw [readValue, skipBlanks_cons hblank]
  split <;> simp_all

theorem readValue_string :
    readValue (steps + 1) ('"' :: cs) =
      (readString .plain {} cs).map fun (t, left) => (.string t, left) := rfl

theorem readValue_array (hblank : isBlank c = false) (hclose : c ≠ ']') :
    readValue (steps + 1) ('[' :: c :: cs) =
      (readItems steps (c :: cs)).map fun (items, left) => (.array items, left) := by
  have hopen : skipBlanks ('[' :: c :: cs) = '[' :: c :: cs := rfl
  simp only [readValue, hopen, skipBlanks_cons hblank]
  split
  · next heq => exact absurd (List.cons.inj heq).1 hclose
  · rfl

theorem readValue_object :
    readValue (steps + 1) ('\x7b' :: '"' :: cs) =
      (readFields steps ('"' :: cs)).map fun (fields, left) => (.object fields, left) := rfl

theorem readItems_last (h : readValue steps cs = some (item, ']' :: rest)) :
    readItems (steps + 1) cs = some ([item], rest) := by
  rw [readItems, h]
  rfl

theorem readItems_more {items : List Json} (h : readValue steps cs = some (item, ',' :: rest))
    (hrest : readItems steps rest = some (items, left)) :
    readItems (steps + 1) cs = some (item :: items, left) := by
  have hnext : readItems (steps + 1) cs =
      (readItems steps rest).map fun (items, left) => (item :: items, left) := by
    rw [readItems, h]
    rfl
  rw [hnext, hrest]
  rfl

theorem readFields_step {name : String} :
    readFields (steps + 1) ((quote name).toList ++ ':' :: cs) =
      match readValue steps cs with
      | none => none
      | some (value, left) =>
        match skipBlanks left with
        | ',' :: rest =>
          (readFields steps rest).map fun (fields, left) => ((some name, value) :: fields, left)
        | '\x7d' :: rest => some ([(some name, value)], rest)
        | _ => none := by
  have hquote : skipBlanks ((quote name).toList ++ ':' :: cs) =
      '"' :: (name.toList.flatMap escapeChar ++ '"' :: ':' :: cs) := by
    rw [toList_quote, List.cons_append, List.append_assoc]
    rfl
  simp only [readFields, hquote, readString_quote]
  rfl

theorem readFields_last {name : String} (h : readValue steps cs = some (value, '\x7d' :: rest)) :
    readFields (steps + 1) ((quote name).toList ++ ':' :: cs) = some ([(some name, value)], rest) := by
  rw [readFields_step, h]
  rfl

theorem readFields_more {name : String} {fields : List (Json.Text × Json)}
    (h : readValue steps cs = some (value, ',' :: rest))
    (hrest : readFields steps rest = some (fields, left)) :
    readFields (steps + 1) ((quote name).toList ++ ':' :: cs) =
      some ((some name, value) :: fields, left) := by
  have hnext : readFields (steps + 1) ((quote name).toList ++ ':' :: cs) =
      (readFields steps rest).map fun (fields, left) => ((some name, value) :: fields, left) := by
    rw [readFields_step, h]
    rfl
  rw [hnext, hrest]
  rfl

end

/-! ## Written values -/

/-- The text of the value is read as the value, whatever item ends after it. -/
def Reads (j : Json) : Prop :=
  ∀ {steps : Nat} {rest : List Char}, 2 * j.compress.toList.length ≤ steps → Ends rest →
    readValue steps (j.compress.toList ++ rest) = some (j, rest)

theorem toList_compress_ofNat (k : Nat) : (ofNat k).compress.toList = Nat.toDigits 10 k :=
  toList_render_ofNat k

theorem toList_compress_array (items : List Json) :
    (Json.array items).compress.toList = '[' :: ((compressItems items).toList ++ [']']) := by
  simp [compress]

theorem toList_compress_ofFields (fields : List (String × Json)) :
    (ofFields fields).compress.toList =
      '\x7b' :: ((compressFields (fields.map fun (name, value) => (some name, value))).toList ++
        ['\x7d']) := by
  simp [ofFields, compress]

theorem isBlank_of_isDigit {c : Char} (h : c.isDigit = true) : isBlank c = false := by
  simp [isBlank, ne_of_isDigit h (d := ' ') rfl, ne_of_isDigit h (d := '\n') rfl,
    ne_of_isDigit h (d := '\t') rfl, ne_of_isDigit h (d := '\r') rfl]

/-- The text of a value does not begin like a blank or the end of an array. -/
theorem Plain.exists_first {j : Json} (h : j.Plain) :
    ∃ c cs, j.compress.toList = c :: cs ∧ isBlank c = false ∧ c ≠ ']' := by
  cases h with
  | null => exact ⟨'n', _, rfl, rfl, by decide⟩
  | bool b =>
    cases b with
    | false => exact ⟨'f', _, rfl, rfl, by decide⟩
    | true => exact ⟨'t', _, rfl, rfl, by decide⟩
  | @count k _ =>
    rw [toList_compress_ofNat]
    obtain ⟨c, cs, hdigits, hdigit⟩ := exists_first_digit k
    exact ⟨c, cs, hdigits, isBlank_of_isDigit hdigit, ne_of_isDigit hdigit rfl⟩
  | text s => exact ⟨'"', _, toList_quote s, rfl, by decide⟩
  | array _ => exact ⟨'[', _, toList_compress_array _, rfl, by decide⟩
  | object _ => exact ⟨'\x7b', _, toList_compress_ofFields _, rfl, by decide⟩

theorem reads_ofNat (k : Nat) : (ofNat k).Reads := by
  intro steps rest hsteps hrest
  obtain ⟨c, cs, hdigits, hdigit⟩ := exists_first_digit k
  have hatom := readAtom_toDigits k hrest
  rw [toList_compress_ofNat, hdigits] at hsteps ⊢
  rw [hdigits, List.cons_append] at hatom
  rw [List.length_cons] at hsteps
  obtain ⟨more, rfl⟩ : ∃ more, steps = more + 1 := Nat.exists_eq_add_one.2 (by omega)
  rw [List.cons_append, readValue_atom (isBlank_of_isDigit hdigit) (ne_of_isDigit hdigit rfl)
    (ne_of_isDigit hdigit rfl) (ne_of_isDigit hdigit rfl), hatom]

theorem reads_ofString (s : String) : (ofString s).Reads := by
  intro steps rest hsteps _
  have htext : (ofString s).compress.toList = '"' :: (s.toList.flatMap escapeChar ++ ['"']) :=
    toList_quote s
  rw [htext, List.length_cons] at hsteps
  obtain ⟨more, rfl⟩ : ∃ more, steps = more + 1 := Nat.exists_eq_add_one.2 (by omega)
  rw [htext, List.cons_append, List.append_assoc, readValue_string]
  exact congrArg (Option.map _) (readString_quote s rest)

/-- Items in a row are read up to the bracket after them. -/
theorem readItems_compressItems {items : List Json} (hne : items ≠ [])
    (h : ∀ item ∈ items, Reads item) (steps : Nat) (rest : List Char)
    (hsteps : 2 * (compressItems items).toList.length + 1 ≤ steps) :
    readItems steps ((compressItems items).toList ++ ']' :: rest) = some (items, rest) := by
  induction items generalizing steps with
  | nil => exact absurd rfl hne
  | cons item items ih =>
    obtain ⟨more, rfl⟩ : ∃ more, steps = more + 1 := Nat.exists_eq_add_one.2 (by omega)
    obtain ⟨hitem, hitems⟩ := List.forall_mem_cons.1 h
    cases items with
    | nil =>
      rw [compressItems] at hsteps ⊢
      exact readItems_last (hitem (by omega) (ends_cons (by simp)))
    | cons next items =>
      have htext : (compressItems (item :: next :: items)).toList =
          item.compress.toList ++ ',' :: (compressItems (next :: items)).toList := by
        simp [compressItems]
      rw [htext, List.length_append, List.length_cons] at hsteps
      rw [htext, List.append_assoc, List.cons_append]
      exact readItems_more (hitem (by omega) (ends_cons (by simp)))
        (ih (List.cons_ne_nil _ _) hitems more (by omega))

theorem reads_array {items : List Json} (hplain : ∀ item ∈ items, Plain item)
    (h : ∀ item ∈ items, Reads item) : (Json.array items).Reads := by
  intro steps rest hsteps _
  rw [toList_compress_array, List.length_cons, List.length_append] at hsteps
  obtain ⟨more, rfl⟩ : ∃ more, steps = more + 1 := Nat.exists_eq_add_one.2 (by omega)
  rw [toList_compress_array, List.cons_append, List.append_assoc]
  cases items with
  | nil => rfl
  | cons item items =>
    have hread := readItems_compressItems (List.cons_ne_nil _ _) h more rest
      (by simp only [List.length_singleton] at hsteps; omega)
    obtain ⟨c, cs, hfirst, hblank, hclose⟩ : ∃ c cs,
        (compressItems (item :: items)).toList = c :: cs ∧ isBlank c = false ∧ c ≠ ']' := by
      obtain ⟨c, cs, hfirst, hc⟩ := (hplain item List.mem_cons_self).exists_first
      cases items with
      | nil => exact ⟨c, cs, hfirst, hc⟩
      | cons next items => exact ⟨c, _, by simp [compressItems, hfirst]; rfl, hc⟩
    rw [hfirst, List.cons_append] at hread ⊢
    rw [readValue_array hblank hclose]
    exact congrArg (Option.map _) hread

/-- Fields in a row are read up to the brace after them. -/
theorem readFields_compressFields {fields : List (String × Json)} (hne : fields ≠ [])
    (h : ∀ f ∈ fields, Reads f.2) (steps : Nat) (rest : List Char)
    (hsteps : 2 * (compressFields (fields.map fun f => (some f.1, f.2))).toList.length + 1 ≤ steps) :
    readFields steps ((compressFields (fields.map fun f => (some f.1, f.2))).toList ++ '\x7d' :: rest) =
      some (fields.map fun f => (some f.1, f.2), rest) := by
  induction fields generalizing steps with
  | nil => exact absurd rfl hne
  | cons f fields ih =>
    obtain ⟨more, rfl⟩ : ∃ more, steps = more + 1 := Nat.exists_eq_add_one.2 (by omega)
    obtain ⟨hf, hfields⟩ := List.forall_mem_cons.1 h
    cases fields with
    | nil =>
      have htext : (compressFields [(some f.1, f.2)]).toList =
          (quote f.1).toList ++ ':' :: f.2.compress.toList := by
        simp [compressFields, quoteText]
      rw [List.map_singleton, htext, List.length_append, List.length_cons] at hsteps
      rw [List.map_singleton, htext, List.append_assoc, List.cons_append]
      exact readFields_last (hf (by omega) (ends_cons (by simp)))
    | cons next fields =>
      have htext : (compressFields ((some f.1, f.2) ::
            (next :: fields).map fun f => (some f.1, f.2))).toList =
          (quote f.1).toList ++ ':' :: (f.2.compress.toList ++
            ',' :: (compressFields ((next :: fields).map fun f => (some f.1, f.2))).toList) := by
        simp [compressFields, quoteText]
      rw [List.map_cons, htext] at hsteps ⊢
      simp only [List.length_append, List.length_cons] at hsteps
      rw [List.append_assoc, List.cons_append, List.append_assoc, List.cons_append]
      exact readFields_more (hf (by omega) (ends_cons (by simp)))
        (ih (List.cons_ne_nil _ _) hfields more (by omega))

theorem reads_ofFields {fields : List (String × Json)} (h : ∀ f ∈ fields, Reads f.2) :
    (ofFields fields).Reads := by
  intro steps rest hsteps _
  rw [toList_compress_ofFields, List.length_cons, List.length_append] at hsteps
  obtain ⟨more, rfl⟩ : ∃ more, steps = more + 1 := Nat.exists_eq_add_one.2 (by omega)
  rw [toList_compress_ofFields, List.cons_append, List.append_assoc]
  cases fields with
  | nil => rfl
  | cons f fields =>
    have hread := readFields_compressFields (List.cons_ne_nil _ _) h more rest
      (by simp only [List.length_singleton] at hsteps; omega)
    obtain ⟨cs, hfirst⟩ : ∃ cs,
        (compressFields ((f :: fields).map fun f => (some f.1, f.2))).toList = '"' :: cs := by
      cases fields with
      | nil => exact ⟨_, by simp [compressFields, quoteText, toList_quote]; rfl⟩
      | cons next fields => exact ⟨_, by simp [compressFields, quoteText, toList_quote]; rfl⟩
    rw [hfirst, List.cons_append] at hread ⊢
    rw [readValue_object]
    exact congrArg (Option.map _) hread

theorem Plain.reads {j : Json} (h : j.Plain) : j.Reads := by
  induction h with
  | null =>
    intro steps rest hsteps _
    obtain ⟨more, rfl⟩ : ∃ more, steps = more + 8 := Nat.exists_eq_add_of_le' hsteps
    rfl
  | bool b =>
    intro steps rest hsteps _
    cases b with
    | false =>
      obtain ⟨more, rfl⟩ : ∃ more, steps = more + 10 := Nat.exists_eq_add_of_le' hsteps
      rfl
    | true =>
      obtain ⟨more, rfl⟩ : ∃ more, steps = more + 8 := Nat.exists_eq_add_of_le' hsteps
      rfl
  | @count k _ => exact reads_ofNat k
  | text s => exact reads_ofString s
  | array h ih => exact reads_array h ih
  | object _ ih => exact reads_ofFields ih

/-- A plain value is read back from its text. -/
theorem parse?_compress {j : Json} (h : j.Plain) : parse? j.compress = some j := by
  have hread : readValue (2 * j.compress.toList.length + 2) (j.compress.toList ++ []) =
      some (j, []) := h.reads (by omega) (.inl rfl)
  rw [List.append_nil] at hread
  simp [parse?, hread, skipBlanks]

end NandHdl.Json
