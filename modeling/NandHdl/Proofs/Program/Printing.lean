-- SUMMARY: The text of an expression identifies it (`Expr.render_inj`).
import NandHdl.Program
import Std.Data.String.ToNat
import Mathlib.Data.List.Basic

/-!
# Printed expressions

The text of an expression begins with its head, which is a literal, a name, a concatenation or a
call. The parts that are taken of the head follow it one by one. No parentheses are written, and
none are needed: the head begins with a word or with a brace, a word ends where the first other
character stands, and each selection shows by its first character what it is.

A text that begins with an expression therefore tells where the expression ends, as long as it goes
on with what may stand behind an argument or with nothing.
-/

namespace NandHdl

/-! ## Words -/

/-- An ASCII letter, a digit or an underscore. -/
def isWordChar (c : Char) : Bool := c.isAlphanum || c == '_'

/-- A word that does not begin with a digit. -/
structure IsIdentifier (name : String) : Prop where
  nonempty : name.toList ≠ []
  word : ∀ c ∈ name.toList, isWordChar c = true
  first : ∀ c ∈ name.toList.head?, c.isDigit = false

theorem isIdentifier_iff {name : String} : IsIdentifier name ↔ name.toList ≠ [] ∧
    name.toList.all isWordChar = true ∧ name.toList.head?.all (!·.isDigit) = true := by
  simp only [List.all_eq_true, Option.all_eq_true, Bool.not_eq_true']
  exact ⟨fun h => ⟨h.nonempty, h.word, h.first⟩,
    fun ⟨hnonempty, hword, hfirst⟩ => ⟨hnonempty, hword, hfirst⟩⟩

instance (name : String) : Decidable (IsIdentifier name) := decidable_of_iff' _ isIdentifier_iff

/-- The text does not go on with a word, nor with the arguments of a call. -/
def EndsWord (rest : List Char) : Prop := ∀ c ∈ rest.head?, isWordChar c = false ∧ c ≠ '('

theorem endsWord_cons {c : Char} {rest : List Char} (hc : isWordChar c = false) (hopen : c ≠ '(') :
    EndsWord (c :: rest) := by
  rintro d hd
  cases hd
  exact ⟨hc, hopen⟩

/-- A word ends where the first other character stands. -/
theorem word_append_inj {w w' r r' : List Char} (hw : ∀ c ∈ w, isWordChar c = true)
    (hw' : ∀ c ∈ w', isWordChar c = true) (hr : ∀ c ∈ r.head?, isWordChar c = false)
    (hr' : ∀ c ∈ r'.head?, isWordChar c = false) (h : w ++ r = w' ++ r') : w = w' ∧ r = r' := by
  have htake : ∀ {w r : List Char}, (∀ c ∈ w, isWordChar c = true) →
      (∀ c ∈ r.head?, isWordChar c = false) → (w ++ r).takeWhile isWordChar = w := by
    intro w r hw hr
    rw [List.takeWhile_append_of_pos hw]
    cases r with
    | nil => simp
    | cons c r => rw [List.takeWhile_cons_of_neg (by simp [hr c rfl]), List.append_nil]
  obtain rfl : w = w' := by rw [← htake hw hr, h, htake hw' hr']
  exact ⟨rfl, List.append_cancel_left h⟩

theorem isWordChar_of_mem_toDigits {k : Nat} {c : Char} (h : c ∈ Nat.toDigits 10 k) :
    isWordChar c = true := by
  have hdigit := Nat.isDigit_of_mem_toDigits (by decide) (by decide) h
  simp [isWordChar, Char.isAlphanum, hdigit]

theorem toDigits_inj {k k' : Nat} (h : Nat.toDigits 10 k = Nat.toDigits 10 k') : k = k' := by
  rw [← Nat.ofDigitChars_ten_toDigits (n := k), h, Nat.ofDigitChars_ten_toDigits]

/-- A number and the sign after it. -/
theorem toDigits_append_inj {k k' : Nat} {c c' : Char} {r r' : List Char}
    (hc : isWordChar c = false) (hc' : isWordChar c' = false)
    (h : Nat.toDigits 10 k ++ c :: r = Nat.toDigits 10 k' ++ c' :: r') :
    k = k' ∧ c = c' ∧ r = r' := by
  obtain ⟨hdigits, hrest⟩ := word_append_inj (fun _ => isWordChar_of_mem_toDigits)
    (fun _ => isWordChar_of_mem_toDigits) (by simp [hc]) (by simp [hc']) h
  exact ⟨toDigits_inj hdigits, List.cons.inj hrest⟩

/-- A number is no name. -/
theorem IsIdentifier.ne_toDigits {name : String} (h : IsIdentifier name) (k : Nat) :
    name.toList ≠ Nat.toDigits 10 k := by
  intro heq
  obtain ⟨c, cs, hdigits⟩ := List.exists_cons_of_ne_nil (Nat.toDigits_ne_nil (n := k) (b := 10))
  have hfirst := h.first c (by rw [heq, hdigits]; rfl)
  rw [Nat.isDigit_of_mem_toDigits (by decide) (by decide) (hdigits ▸ List.mem_cons_self)] at hfirst
  cases hfirst

/-! ## Names of expressions -/

mutual

/-- The names, fields and callees that an expression is written with. -/
def Expr.names : Expr → List String
  | .number _ => []
  | .ident name => [name]
  | .index object _ => object.names
  | .slice object _ _ => object.names
  | .member object field => field :: object.names
  | .concat parts => Expr.allNames parts
  | .call callee args => callee :: Expr.allNames args

/-- The names, fields and callees that several expressions are written with. -/
def Expr.allNames : List Expr → List String
  | [] => []
  | e :: rest => e.names ++ Expr.allNames rest

end

/-- All names in the expression are identifiers. -/
def Expr.Named (e : Expr) : Prop := ∀ name ∈ e.names, IsIdentifier name

instance (e : Expr) : Decidable e.Named := List.decidableBAll _ e.names

/-! ## Heads and selections -/

/-- What takes a part of an expression. -/
inductive Selection where
  | index (position : Nat)
  | slice (first last : Nat)
  | member (field : String)

namespace Selection

/-- The part that is taken of an expression. -/
def of (e : Expr) : Selection → Expr
  | index position => .index e position
  | slice first last => .slice e first last
  | member field => .member e field

/-- The text behind the expression. -/
def text : Selection → List Char
  | index position => '[' :: (Nat.toDigits 10 position ++ [']'])
  | slice first last => '[' :: (Nat.toDigits 10 first ++ ':' :: (Nat.toDigits 10 last ++ [']']))
  | member field => '.' :: field.toList

/-- A selected field is an identifier. -/
def Named : Selection → Prop
  | index _ | slice _ _ => True
  | member field => IsIdentifier field

/-- The part that is taken of an expression by several selections, from the inside out. -/
def ofAll (e : Expr) (ss : List Selection) : Expr := ss.foldl of e

/-- The text of several selections. -/
def texts (ss : List Selection) : List Char := ss.flatMap text

theorem toList_render_of (e : Expr) (s : Selection) :
    (of e s).render.toList = e.render.toList ++ s.text := by
  cases s with
  | index position => simp [of, text, Expr.render]
  | slice first last => simp [of, text, Expr.render]
  | member field => simp [of, text, Expr.render]

theorem toList_render_ofAll (e : Expr) (ss : List Selection) :
    (ofAll e ss).render.toList = e.render.toList ++ texts ss := by
  induction ss generalizing e with
  | nil => simp [ofAll, texts]
  | cons s rest ih =>
    have hrest := ih (of e s)
    rw [toList_render_of, List.append_assoc] at hrest
    exact hrest

theorem named_of {e : Expr} {s : Selection} : (of e s).Named ↔ e.Named ∧ s.Named := by
  cases s with
  | index position => exact (and_iff_left trivial).symm
  | slice first last => exact (and_iff_left trivial).symm
  | member field =>
    simp only [Expr.Named, of, Expr.names, List.forall_mem_cons, Named]
    exact and_comm

theorem named_ofAll {e : Expr} {ss : List Selection} :
    (ofAll e ss).Named ↔ e.Named ∧ ∀ s ∈ ss, s.Named := by
  induction ss generalizing e with
  | nil => simp [ofAll]
  | cons s rest ih =>
    rw [List.forall_mem_cons, ← and_assoc, ← named_of]
    exact ih

end Selection

/-- The expression is no part that is taken of another one. -/
inductive Expr.IsHead : Expr → Prop where
  | number (value : UInt64) : IsHead (.number value)
  | ident (name : String) : IsHead (.ident name)
  | concat (parts : List Expr) : IsHead (.concat parts)
  | call (callee : String) (args : List Expr) : IsHead (.call callee args)

open Selection in
/-- Every expression is a head with selections. -/
theorem Expr.exists_head : ∀ e : Expr, ∃ head ss, head.IsHead ∧ e = ofAll head ss
  | .number value => ⟨.number value, [], .number value, rfl⟩
  | .ident name => ⟨.ident name, [], .ident name, rfl⟩
  | .concat parts => ⟨.concat parts, [], .concat parts, rfl⟩
  | .call callee args => ⟨.call callee args, [], .call callee args, rfl⟩
  | .index object position => by
    obtain ⟨head, ss, hhead, heq⟩ := object.exists_head
    exact ⟨head, ss ++ [.index position], hhead, by rw [heq, ofAll, ofAll, List.foldl_append]; rfl⟩
  | .slice object first last => by
    obtain ⟨head, ss, hhead, heq⟩ := object.exists_head
    exact ⟨head, ss ++ [.slice first last], hhead, by
      rw [heq, ofAll, ofAll, List.foldl_append]; rfl⟩
  | .member object field => by
    obtain ⟨head, ss, hhead, heq⟩ := object.exists_head
    exact ⟨head, ss ++ [.member field], hhead, by rw [heq, ofAll, ofAll, List.foldl_append]; rfl⟩

/-! ## Behind an expression -/

/-- The text that can stand behind an argument: none, a further argument or the end of a list. -/
def EndsArgument (rest : List Char) : Prop := ∀ c ∈ rest.head?, c = ',' ∨ c = ')' ∨ c = '\x7d'

theorem EndsArgument.endsWord {rest : List Char} (h : EndsArgument rest) : EndsWord rest := by
  intro c hc
  rcases h c hc with rfl | rfl | rfl
  all_goals decide

theorem endsArgument_cons {c : Char} {rest : List Char} (hc : c = ',' ∨ c = ')' ∨ c = '\x7d') :
    EndsArgument (c :: rest) := by
  rintro d hd
  cases hd
  exact hc

namespace Selection

theorem endsWord_text (s : Selection) (rest : List Char) : EndsWord (s.text ++ rest) := by
  cases s with
  | index position => exact endsWord_cons rfl (by decide)
  | slice first last => exact endsWord_cons rfl (by decide)
  | member field => exact endsWord_cons rfl (by decide)

theorem texts_cons_append (s : Selection) (ss : List Selection) (rest : List Char) :
    texts (s :: ss) ++ rest = s.text ++ (texts ss ++ rest) := by
  rw [texts, List.flatMap_cons, List.append_assoc]
  rfl

theorem endsWord_texts (ss : List Selection) {rest : List Char} (h : EndsArgument rest) :
    EndsWord (texts ss ++ rest) := by
  cases ss with
  | nil => exact h.endsWord
  | cons s ss =>
    rw [texts_cons_append]
    exact s.endsWord_text _

/-- What can stand behind an argument is no selection. -/
theorem not_endsArgument (s : Selection) (rest : List Char) : ¬EndsArgument (s.text ++ rest) := by
  intro h
  cases s with
  | index position => exact absurd (h '[' rfl) (by decide)
  | slice first last => exact absurd (h '[' rfl) (by decide)
  | member field => exact absurd (h '.' rfl) (by decide)

/-- A text begins with one selection at most. -/
theorem text_append_inj {s s' : Selection} {r r' : List Char} (hs : s.Named) (hs' : s'.Named)
    (hr : EndsWord r) (hr' : EndsWord r') (h : s.text ++ r = s'.text ++ r') : s = s' ∧ r = r' := by
  cases s with
  | index position =>
    cases s' with
    | index position' =>
      simp only [text, List.cons_append, List.append_assoc, List.cons.injEq, true_and,
        List.nil_append] at h
      obtain ⟨rfl, -, rfl⟩ := toDigits_append_inj rfl rfl h
      exact ⟨rfl, rfl⟩
    | slice first last =>
      simp only [text, List.cons_append, List.append_assoc, List.cons.injEq, true_and,
        List.nil_append] at h
      exact absurd (toDigits_append_inj rfl rfl h).2.1 (by decide)
    | member field => exact absurd (List.cons.inj h).1 (by decide)
  | slice first last =>
    cases s' with
    | index position =>
      simp only [text, List.cons_append, List.append_assoc, List.cons.injEq, true_and,
        List.nil_append] at h
      exact absurd (toDigits_append_inj rfl rfl h).2.1 (by decide)
    | slice first' last' =>
      simp only [text, List.cons_append, List.append_assoc, List.cons.injEq, true_and,
        List.nil_append] at h
      obtain ⟨rfl, -, h⟩ := toDigits_append_inj rfl rfl h
      obtain ⟨rfl, -, rfl⟩ := toDigits_append_inj rfl rfl h
      exact ⟨rfl, rfl⟩
    | member field => exact absurd (List.cons.inj h).1 (by decide)
  | member field =>
    cases s' with
    | index position => exact absurd (List.cons.inj h).1 (by decide)
    | slice first last => exact absurd (List.cons.inj h).1 (by decide)
    | member field' =>
      obtain ⟨hfield, rfl⟩ := word_append_inj hs.word hs'.word (fun c hc => (hr c hc).1)
        (fun c hc => (hr' c hc).1) (List.cons.inj h).2
      exact ⟨by rw [String.toList_inj.1 hfield], rfl⟩

/-- A text tells where its selections end. -/
theorem texts_append_inj {ss ss' : List Selection} {r r' : List Char} (hss : ∀ s ∈ ss, s.Named)
    (hss' : ∀ s ∈ ss', s.Named) (hr : EndsArgument r) (hr' : EndsArgument r')
    (h : texts ss ++ r = texts ss' ++ r') : ss = ss' ∧ r = r' := by
  induction ss generalizing ss' with
  | nil =>
    cases ss' with
    | nil => exact ⟨rfl, h⟩
    | cons s' rest' =>
      rw [texts_cons_append] at h
      obtain rfl : r = s'.text ++ (texts rest' ++ r') := h
      exact absurd hr (s'.not_endsArgument _)
  | cons s rest ih =>
    rw [texts_cons_append] at h
    cases ss' with
    | nil =>
      obtain rfl : s.text ++ (texts rest ++ r) = r' := h
      exact absurd hr' (s.not_endsArgument _)
    | cons s' rest' =>
      rw [texts_cons_append] at h
      obtain ⟨hs, hrest⟩ := List.forall_mem_cons.1 hss
      obtain ⟨hs', hrest'⟩ := List.forall_mem_cons.1 hss'
      obtain ⟨rfl, htexts⟩ :=
        text_append_inj hs hs' (endsWord_texts rest hr) (endsWord_texts rest' hr') h
      obtain ⟨rfl, rfl⟩ := ih hrest hrest' htexts
      exact ⟨rfl, rfl⟩

end Selection

/-! ## Heads -/

namespace Expr

/-- The word that a head begins with. -/
def word : Expr → List Char
  | .number value => Nat.toDigits 10 value.toNat
  | .ident name => name.toList
  | .call callee _ => callee.toList
  | .concat _ | .index _ _ | .slice _ _ _ | .member _ _ => []

/-- The text of a head behind its word. -/
def enclosed : Expr → List Char
  | .concat parts => '\x7b' :: ((renderAll parts).toList ++ ['\x7d'])
  | .call _ args => '(' :: ((renderAll args).toList ++ [')'])
  | .number _ | .ident _ | .index _ _ | .slice _ _ _ | .member _ _ => []

theorem IsHead.toList_render {e : Expr} (h : e.IsHead) :
    e.render.toList = e.word ++ e.enclosed := by
  cases h with
  | number value => simp [render, word, enclosed]
  | ident name => simp [render, word, enclosed]
  | concat parts => simp [render, word, enclosed]
  | call callee args => simp [render, word, enclosed]

theorem IsHead.word_chars {e : Expr} (h : e.IsHead) (hnamed : e.Named) :
    ∀ c ∈ e.word, isWordChar c = true := by
  cases h with
  | number value => exact fun _ => isWordChar_of_mem_toDigits
  | ident name => exact (hnamed name List.mem_cons_self).word
  | concat parts => exact nofun
  | call callee args => exact (hnamed callee List.mem_cons_self).word

theorem IsHead.endsWord_enclosed {e : Expr} (h : e.IsHead) {rest : List Char}
    (hrest : EndsWord rest) : ∀ c ∈ (e.enclosed ++ rest).head?, isWordChar c = false := by
  cases h with
  | number value => exact fun c hc => (hrest c hc).1
  | ident name => exact fun c hc => (hrest c hc).1
  | concat parts => simp [enclosed, isWordChar]
  | call callee args => simp [enclosed, isWordChar]

/-- Texts that begin with heads begin with the same word. -/
theorem IsHead.append_inj {e e' : Expr} {r r' : List Char} (he : e.IsHead) (he' : e'.IsHead)
    (hnamed : e.Named) (hnamed' : e'.Named) (hr : EndsWord r) (hr' : EndsWord r')
    (h : e.render.toList ++ r = e'.render.toList ++ r') :
    e.word = e'.word ∧ e.enclosed ++ r = e'.enclosed ++ r' := by
  rw [he.toList_render, he'.toList_render, List.append_assoc, List.append_assoc] at h
  exact word_append_inj (he.word_chars hnamed) (he'.word_chars hnamed') (he.endsWord_enclosed hr)
    (he'.endsWord_enclosed hr') h

/-- A text that begins with the head begins with no other head. -/
structure Sole (e : Expr) : Prop where
  eq : ∀ {e' : Expr} {r r' : List Char}, e'.IsHead → e'.Named → EndsWord r → EndsWord r' →
    e.word = e'.word → e.enclosed ++ r = e'.enclosed ++ r' → e = e' ∧ r = r'

theorem sole_number (value : UInt64) : (number value).Sole := by
  refine ⟨fun {e' r r'} hhead hnamed _ _ hword hrest => ?_⟩
  cases hhead with
  | number value' =>
    exact ⟨congrArg number (UInt64.toNat_inj.1 (toDigits_inj hword)), hrest⟩
  | ident name => exact absurd hword.symm ((hnamed name List.mem_cons_self).ne_toDigits _)
  | call callee args => exact absurd hword.symm ((hnamed callee List.mem_cons_self).ne_toDigits _)
  | concat parts => exact absurd hword Nat.toDigits_ne_nil

theorem sole_ident {name : String} (hname : IsIdentifier name) : (ident name).Sole := by
  refine ⟨fun {e' r r'} hhead hnamed hr _ hword hrest => ?_⟩
  cases hhead with
  | number value => exact absurd hword (hname.ne_toDigits _)
  | ident name' => exact ⟨congrArg ident (String.toList_inj.1 hword), hrest⟩
  | call callee args =>
    obtain rfl : r = (call callee args).enclosed ++ r' := hrest
    exact absurd rfl (hr '(' rfl).2
  | concat parts => exact absurd hword hname.nonempty

/-! ## Arguments -/

/-- The text of further arguments, behind the first one. -/
def furtherText : List Expr → List Char
  | [] => []
  | e :: rest => ',' :: ' ' :: (e.render.toList ++ furtherText rest)

theorem toList_renderAll_cons (e : Expr) (rest : List Expr) :
    (renderAll (e :: rest)).toList = e.render.toList ++ furtherText rest := by
  induction rest generalizing e with
  | nil => simp [renderAll, furtherText]
  | cons e' rest ih => simp [renderAll, furtherText, ih]

/-- A text that begins with the expression, with selections on it, begins with no other. -/
structure Readable (e : Expr) : Prop where
  append_inj : ∀ {e' : Expr} {ss : List Selection} {r r' : List Char}, (∀ s ∈ ss, s.Named) →
    e'.Named → EndsArgument r → EndsArgument r' →
    e.render.toList ++ (Selection.texts ss ++ r) = e'.render.toList ++ r' →
    Selection.ofAll e ss = e' ∧ r = r'

/-- The end of a list of arguments. -/
def IsClose (c : Char) : Prop := c = ')' ∨ c = '\x7d'

/-- A text that begins with the further arguments and the end of their list begins with no other
arguments. -/
structure FurtherReadable (es : List Expr) : Prop where
  append_inj : ∀ {es' : List Expr} {c c' : Char} {r r' : List Char}, (∀ e ∈ es', e.Named) →
    IsClose c → IsClose c' → furtherText es ++ c :: r = furtherText es' ++ c' :: r' →
    es = es' ∧ r = r'

theorem IsClose.endsArgument {c : Char} (h : IsClose c) (rest : List Char) :
    EndsArgument (c :: rest) :=
  endsArgument_cons (.inr h)

theorem endsArgument_further (es : List Expr) {c : Char} (hc : IsClose c) (rest : List Char) :
    EndsArgument (furtherText es ++ c :: rest) := by
  cases es with
  | nil => exact hc.endsArgument rest
  | cons e es => exact endsArgument_cons (.inl rfl)

theorem IsHead.readable {e : Expr} (he : e.IsHead) (hnamed : e.Named) (hsole : e.Sole) :
    e.Readable := by
  refine ⟨fun {e' ss r r'} hss hnamed' hr hr' h => ?_⟩
  obtain ⟨head, ss', hhead, rfl⟩ := e'.exists_head
  obtain ⟨hnamedHead, hss'⟩ := Selection.named_ofAll.1 hnamed'
  rw [Selection.toList_render_ofAll, List.append_assoc] at h
  have hends := Selection.endsWord_texts ss hr
  have hends' := Selection.endsWord_texts ss' hr'
  obtain ⟨hword, hrest⟩ := he.append_inj hhead hnamed hnamedHead hends hends' h
  obtain ⟨rfl, htexts⟩ := hsole.eq hhead hnamedHead hends hends' hword hrest
  obtain ⟨rfl, rfl⟩ := Selection.texts_append_inj hss hss' hr hr' htexts
  exact ⟨rfl, rfl⟩

/-- A part is readable if the expression that it is taken of is. -/
theorem Readable.of {e : Expr} (h : e.Readable) {s : Selection} (hs : s.Named) :
    (s.of e).Readable := by
  refine ⟨fun {e' ss r r'} hss hnamed' hr hr' htext => ?_⟩
  rw [Selection.toList_render_of, List.append_assoc, ← Selection.texts_cons_append] at htext
  exact h.append_inj (List.forall_mem_cons.2 ⟨hs, hss⟩) hnamed' hr hr' htext

theorem furtherReadable_nil : FurtherReadable [] := by
  refine ⟨fun {es' c c' r r'} _ hc _ h => ?_⟩
  cases es' with
  | nil => exact ⟨rfl, (List.cons.inj h).2⟩
  | cons e' rest' =>
    obtain rfl : c = ',' := (List.cons.inj h).1
    exact absurd hc (by simp [IsClose])

theorem Readable.further {e : Expr} {es : List Expr} (he : e.Readable) (hes : FurtherReadable es) :
    FurtherReadable (e :: es) := by
  refine ⟨fun {es' c c' r r'} hnamed hc hc' h => ?_⟩
  cases es' with
  | nil =>
    obtain rfl : ',' = c' := (List.cons.inj h).1
    exact absurd hc' (by simp [IsClose])
  | cons e' es' =>
    obtain ⟨he', hes'⟩ := List.forall_mem_cons.1 hnamed
    simp only [furtherText, List.cons_append, List.append_assoc, List.cons.injEq, true_and] at h
    obtain ⟨rfl, hfurther⟩ := he.append_inj (List.forall_mem_nil _) he'
      (endsArgument_further es hc r) (endsArgument_further es' hc' r') h
    obtain ⟨rfl, rfl⟩ := hes.append_inj hes' hc hc' hfurther
    exact ⟨rfl, rfl⟩

theorem IsHead.exists_first {e : Expr} (he : e.IsHead) (h : e.Named) :
    ∃ c cs, e.render.toList = c :: cs ∧ (isWordChar c = true ∨ c = '\x7b') := by
  have hcons : e.word ≠ [] → ∃ c cs, e.render.toList = c :: cs ∧
      (isWordChar c = true ∨ c = '\x7b') := by
    intro hword
    obtain ⟨c, cs, hcs⟩ := List.exists_cons_of_ne_nil hword
    refine ⟨c, cs ++ e.enclosed, by rw [he.toList_render, hcs]; rfl, .inl (he.word_chars h c ?_)⟩
    exact hcs ▸ List.mem_cons_self
  cases he with
  | number value => exact hcons Nat.toDigits_ne_nil
  | ident name => exact hcons (h name List.mem_cons_self).nonempty
  | call callee args => exact hcons (h callee List.mem_cons_self).nonempty
  | concat parts => exact ⟨_, _, (IsHead.concat parts).toList_render, .inr rfl⟩

/-- An expression does not begin with the end of a list. -/
theorem Named.not_isClose {e : Expr} (h : e.Named) {c : Char} {cs rest : List Char}
    (htext : e.render.toList ++ rest = c :: cs) : ¬IsClose c := by
  obtain ⟨head, ss, hhead, rfl⟩ := e.exists_head
  obtain ⟨d, ds, hds, hd⟩ := hhead.exists_first (Selection.named_ofAll.1 h).1
  rw [Selection.toList_render_ofAll, hds] at htext
  obtain rfl : d = c := (List.cons.inj htext).1
  rintro (rfl | rfl)
  all_goals exact absurd hd (by decide)

/-- A text that begins with a list of arguments and its end begins with no other list. -/
theorem FurtherReadable.all {es es' : List Expr} (h : FurtherReadable es)
    (hnamed : ∀ e ∈ es, e.Named) (hnamed' : ∀ e ∈ es', e.Named) {c c' : Char} {r r' : List Char}
    (hc : IsClose c) (hc' : IsClose c')
    (htext : (renderAll es).toList ++ c :: r = (renderAll es').toList ++ c' :: r') :
    es = es' ∧ r = r' := by
  cases es with
  | nil =>
    cases es' with
    | nil => exact ⟨rfl, (List.cons.inj htext).2⟩
    | cons e' rest' =>
      rw [toList_renderAll_cons, List.append_assoc] at htext
      exact absurd hc ((hnamed' e' List.mem_cons_self).not_isClose htext.symm)
  | cons e rest =>
    cases es' with
    | nil =>
      rw [toList_renderAll_cons, List.append_assoc] at htext
      exact absurd hc' ((hnamed e List.mem_cons_self).not_isClose htext)
    | cons e' rest' =>
      rw [toList_renderAll_cons, toList_renderAll_cons] at htext
      refine h.append_inj hnamed' hc hc' ?_
      simp only [furtherText, List.cons_append, htext]

theorem mem_allNames {es : List Expr} {name : String} :
    name ∈ allNames es ↔ ∃ e ∈ es, name ∈ e.names := by
  induction es with
  | nil => simp [allNames]
  | cons e rest ih => simp [allNames, ih]

theorem named_concat {parts : List Expr} : (concat parts).Named ↔ ∀ e ∈ parts, e.Named := by
  simp only [Named, names, mem_allNames, forall_exists_index, and_imp]
  exact ⟨fun h e he name hname => h name e he hname, fun h name e he hname => h e he name hname⟩

theorem named_call {callee : String} {args : List Expr} :
    (call callee args).Named ↔ IsIdentifier callee ∧ ∀ e ∈ args, e.Named := by
  rw [← named_concat]
  exact List.forall_mem_cons

theorem sole_concat {parts : List Expr} (hparts : ∀ e ∈ parts, e.Named)
    (h : FurtherReadable parts) : (concat parts).Sole := by
  refine ⟨fun {e' r r'} hhead hnamed _ hr' hword hrest => ?_⟩
  cases hhead with
  | number value => exact absurd hword.symm Nat.toDigits_ne_nil
  | ident name => exact absurd hword.symm (hnamed name List.mem_cons_self).nonempty
  | call callee args => exact absurd hword.symm (hnamed callee List.mem_cons_self).nonempty
  | concat parts' =>
    simp only [enclosed, List.cons_append, List.append_assoc, List.cons.injEq, true_and] at hrest
    obtain ⟨rfl, rfl⟩ := h.all hparts (named_concat.1 hnamed) (.inr rfl) (.inr rfl) hrest
    exact ⟨rfl, rfl⟩

theorem sole_call {callee : String} {args : List Expr} (hcallee : IsIdentifier callee)
    (hargs : ∀ e ∈ args, e.Named) (h : FurtherReadable args) : (call callee args).Sole := by
  refine ⟨fun {e' r r'} hhead hnamed _ hr' hword hrest => ?_⟩
  cases hhead with
  | number value => exact absurd hword (hcallee.ne_toDigits _)
  | ident name =>
    obtain rfl : (call callee args).enclosed ++ r = r' := hrest
    exact absurd rfl (hr' _ rfl).2
  | call callee' args' =>
    obtain rfl := String.toList_inj.1 hword
    simp only [enclosed, List.cons_append, List.append_assoc, List.cons.injEq, true_and] at hrest
    obtain ⟨rfl, rfl⟩ := h.all hargs (named_call.1 hnamed).2 (.inl rfl) (.inl rfl) hrest
    exact ⟨rfl, rfl⟩
  | concat parts => exact absurd hword hcallee.nonempty

/-! ## The theorem -/

mutual

theorem readable : ∀ e : Expr, e.Named → e.Readable
  | .number value, h => (IsHead.number value).readable h (sole_number value)
  | .ident name, h => (IsHead.ident name).readable h (sole_ident (h name List.mem_cons_self))
  | .concat parts, h =>
    have hparts := named_concat.1 h
    (IsHead.concat parts).readable h (sole_concat hparts (furtherReadable parts hparts))
  | .call callee args, h =>
    have ⟨hcallee, hargs⟩ := named_call.1 h
    (IsHead.call callee args).readable h (sole_call hcallee hargs (furtherReadable args hargs))
  | .index object position, h =>
    have ⟨hobject, hs⟩ := (Selection.named_of (s := .index position)).1 h
    (object.readable hobject).of hs
  | .slice object first last, h =>
    have ⟨hobject, hs⟩ := (Selection.named_of (s := .slice first last)).1 h
    (object.readable hobject).of hs
  | .member object field, h =>
    have ⟨hobject, hs⟩ := (Selection.named_of (s := .member field)).1 h
    (object.readable hobject).of hs

theorem furtherReadable : ∀ es : List Expr, (∀ e ∈ es, e.Named) → FurtherReadable es
  | [], _ => furtherReadable_nil
  | e :: rest, h =>
    have ⟨he, hrest⟩ := List.forall_mem_cons.1 h
    (e.readable he).further (furtherReadable rest hrest)

end

/-- Two expressions in which all names are identifiers have the same text only if they are the
same. -/
theorem render_inj {e e' : Expr} (h : e.Named) (h' : e'.Named) :
    e.render = e'.render ↔ e = e' := by
  constructor
  · intro htext
    have hlists : e.render.toList ++ (Selection.texts [] ++ []) = e'.render.toList ++ [] := by
      rw [htext]
      rfl
    have hends : EndsArgument [] := by simp [EndsArgument]
    exact ((readable e h).append_inj (List.forall_mem_nil _) h' hends hends hlists).1
  · exact congrArg render

/-- A part of a literal among empty lists: `{1[2:0].b, f(), {}}` and `{1[2].b, f(), {}}`. -/
theorem render_inj_partOfLiteral :
    let e := concat [member (slice (number 1) 2 0) "b", call "f" [], concat []]
    let e' := concat [member (index (number 1) 2) "b", call "f" [], concat []]
    e.Named ∧ e'.Named ∧ e.render ≠ e'.render := by
  intro e e'
  have h : e.Named := by decide
  have h' : e'.Named := by decide
  exact ⟨h, h', (render_inj h h').not.2 (by simp [e, e'])⟩

end Expr

end NandHdl
