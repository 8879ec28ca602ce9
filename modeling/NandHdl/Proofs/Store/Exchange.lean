-- SUMMARY: Stores as bytes (`Store.exchange`): every store that is reached goes through bytes and back, and the bytes that are accepted are exactly those of a store.
import NandHdl.Store.Bytes
import NandHdl.Proofs.Store.Layout

/-!
# Stores as bytes, and back

A buffer is accepted for its first three words and its length alone. Both are part of the layout
that every action keeps, so a store that was reached in any way is accepted again. In the other
direction the bytes that are accepted are described without words: by their number and by three
numbers among them, read with the lowest byte first.
-/

namespace NandHdl

namespace Store

/-! ## Words and bytes -/

/-- The number that bytes stand for, the lowest byte first. -/
def littleEndian (bytes : List UInt8) : Nat := bytes.foldr (fun b rest => b.toNat + 256 * rest) 0

/-- A number above bits that are free. -/
theorem or_shiftLeft {low k : Nat} (h : low < 2 ^ k) (high : Nat) :
    low ||| high <<< k = low + 2 ^ k * high := by
  rw [Nat.or_comm, ← Nat.shiftLeft_add_eq_or_of_lt h, Nat.shiftLeft_eq, Nat.mul_comm, Nat.add_comm]

theorem toNat_toUInt32_shiftLeft (b : UInt8) {k : Nat} (hk : k ≤ 24) :
    (b.toUInt32 <<< UInt32.ofNat k).toNat = b.toNat <<< k := by
  have hb := b.toNat_lt
  have hsize : k % 2 ^ 32 % 32 = k := by omega
  have hpow : 2 ^ k ≤ 2 ^ 24 := Nat.pow_le_pow_right (by omega) hk
  have hlt : b.toNat * 2 ^ k < 2 ^ 32 :=
    Nat.lt_of_le_of_lt (Nat.mul_le_mul_left _ hpow) (by omega)
  rw [UInt32.toNat_shiftLeft, UInt8.toNat_toUInt32, UInt32.toNat_ofNat', hsize, Nat.shiftLeft_eq,
    Nat.mod_eq_of_lt hlt]

theorem toNat_wordOfBytes (b0 b1 b2 b3 : UInt8) :
    (wordOfBytes b0 b1 b2 b3).toNat = littleEndian [b0, b1, b2, b3] := by
  have h0 := b0.toNat_lt
  have h1 := b1.toNat_lt
  have h2 := b2.toNat_lt
  have s1 : (b1.toUInt32 <<< 8).toNat = b1.toNat <<< 8 :=
    toNat_toUInt32_shiftLeft b1 (k := 8) (by omega)
  have s2 : (b2.toUInt32 <<< 16).toNat = b2.toNat <<< 16 :=
    toNat_toUInt32_shiftLeft b2 (k := 16) (by omega)
  have s3 : (b3.toUInt32 <<< 24).toNat = b3.toNat <<< 24 :=
    toNat_toUInt32_shiftLeft b3 (k := 24) (by omega)
  have l2 : b0.toNat + 2 ^ 8 * b1.toNat < 2 ^ 16 := by omega
  have l3 : b0.toNat + 2 ^ 8 * b1.toNat + 2 ^ 16 * b2.toNat < 2 ^ 24 := by omega
  simp only [wordOfBytes, UInt32.toNat_or, UInt8.toNat_toUInt32, s1, s2, s3]
  rw [or_shiftLeft h0, or_shiftLeft l2, or_shiftLeft l3]
  simp only [littleEndian, List.foldr_cons, List.foldr_nil]
  omega

theorem toNat_byte (w : UInt32) {k : Nat} (hk : k < 32) :
    (w >>> UInt32.ofNat k).toUInt8.toNat = w.toNat / 2 ^ k % 256 := by
  have hsize : k % 2 ^ 32 % 32 = k := by omega
  rw [UInt32.toNat_toUInt8, UInt32.toNat_shiftRight, UInt32.toNat_ofNat', hsize,
    Nat.shiftRight_eq_div_pow]

theorem wordBytes_eq (w : UInt32) :
    wordBytes w = [w.toUInt8, (w >>> UInt32.ofNat 8).toUInt8, (w >>> UInt32.ofNat 16).toUInt8,
      (w >>> UInt32.ofNat 24).toUInt8] := rfl

/-- A word is what its bytes stand for. -/
theorem littleEndian_wordBytes (w : UInt32) : littleEndian (wordBytes w) = w.toNat := by
  have hw := w.toNat_lt
  simp only [wordBytes_eq, littleEndian, List.foldr_cons, List.foldr_nil, UInt32.toNat_toUInt8,
    toNat_byte w (by omega : 8 < 32), toNat_byte w (by omega : 16 < 32),
    toNat_byte w (by omega : 24 < 32)]
  omega

theorem wordBytes_wordOfBytes (b0 b1 b2 b3 : UInt8) :
    wordBytes (wordOfBytes b0 b1 b2 b3) = [b0, b1, b2, b3] := by
  have h0 := b0.toNat_lt
  have h1 := b1.toNat_lt
  have h2 := b2.toNat_lt
  have h3 := b3.toNat_lt
  simp only [wordBytes_eq, List.cons.injEq, and_true, ← UInt8.toNat_inj, UInt32.toNat_toUInt8,
    toNat_byte _ (by omega : 8 < 32), toNat_byte _ (by omega : 16 < 32),
    toNat_byte _ (by omega : 24 < 32), toNat_wordOfBytes, littleEndian, List.foldr_cons,
    List.foldr_nil]
  omega

theorem wordsOfBytes_wordBytes_append (w : UInt32) (rest : List UInt8) :
    wordsOfBytes (wordBytes w ++ rest) = w :: wordsOfBytes rest := by
  have hword : wordOfBytes w.toUInt8 (w >>> 8).toUInt8 (w >>> 16).toUInt8 (w >>> 24).toUInt8 = w := by
    apply UInt32.toNat_inj.1
    rw [toNat_wordOfBytes]
    exact littleEndian_wordBytes w
  simp only [wordBytes, List.cons_append, List.nil_append, wordsOfBytes, hword]

/-- The words of the bytes of words. -/
theorem wordsOfBytes_flatMap (words : List UInt32) :
    wordsOfBytes (words.flatMap wordBytes) = words := by
  induction words with
  | nil => rfl
  | cons w rest ih => rw [List.flatMap_cons, wordsOfBytes_wordBytes_append, ih]

/-- The bytes of the words of bytes, if every byte is in a word. -/
theorem flatMap_wordsOfBytes {bytes : List UInt8} (h : bytes.length % 4 = 0) :
    (wordsOfBytes bytes).flatMap wordBytes = bytes := by
  fun_induction wordsOfBytes bytes with
  | case1 b0 b1 b2 b3 rest ih =>
    simp only [List.length_cons] at h
    rw [List.flatMap_cons, wordBytes_wordOfBytes, ih (by omega)]
    rfl
  | case2 bytes hshort =>
    match bytes with
    | [] => rfl
    | [_] => cases h
    | [_, _] => cases h
    | [_, _, _] => cases h
    | b0 :: b1 :: b2 :: b3 :: rest => exact absurd rfl (hshort b0 b1 b2 b3 rest)

theorem length_flatMap_wordBytes (words : List UInt32) :
    (words.flatMap wordBytes).length = 4 * words.length := by
  induction words with
  | nil => rfl
  | cons w rest ih =>
    rw [List.flatMap_cons, List.length_append, ih, List.length_cons]
    exact Nat.add_comm 4 _

/-- The number that the four bytes of a word stand for. -/
def wordAt (bytes : List UInt8) (k : Nat) : Nat := littleEndian ((bytes.drop (4 * k)).take 4)

theorem wordAt_flatMap {words : List UInt32} {k : Nat} (h : k < words.length) :
    wordAt (words.flatMap wordBytes) k = words[k].toNat := by
  induction words generalizing k with
  | nil => exact absurd h (Nat.not_lt_zero k)
  | cons w rest ih =>
    cases k with
    | zero => exact littleEndian_wordBytes w
    | succ k => exact ih (Nat.lt_of_succ_lt_succ h)

/-! ## Buffers that are accepted -/

/-- The words are those of a store: a header with the mark and the version, and as many words as the
third one asks for. -/
structure Proper (words : List UInt32) : Prop where
  long : headerWords ≤ words.length
  mark : words[0]? = some magic
  layout : words[1]? = some version
  count : ∃ count, words[2]? = some count ∧ words.length = wordsFor count.toNat

theorem ofWords?_eq_ok {words : List UInt32} {s : Store} :
    ofWords? words = .ok s ↔ Proper words ∧ s = { words := words.toArray } := by
  unfold ofWords?
  constructor
  · intro h
    split at h
    · split_ifs at h with hlong hmark hlayout hlength
      cases h
      exact ⟨⟨Nat.le_of_not_lt hlong, congrArg some (not_not.1 hmark),
        congrArg some (not_not.1 hlayout), ⟨_, rfl, not_not.1 hlength⟩⟩, rfl⟩
    · cases h
  · rintro ⟨⟨hlong, hmark, hlayout, count, hcount, hlength⟩, rfl⟩
    match words with
    | mark :: layout :: third :: rest =>
      cases hmark
      cases hlayout
      cases hcount
      rw [hlength] at hlong
      simp only [hlength, if_neg (Nat.not_lt.2 hlong), ne_eq, not_true_eq_false, if_false]
    | [] => cases hmark
    | [_] => cases hlayout
    | [_, _] => cases hcount

theorem ofBytes?_eq_ok {bytes : List UInt8} {s : Store} :
    ofBytes? bytes = .ok s ↔
      bytes.length % 4 = 0 ∧ Proper (wordsOfBytes bytes) ∧
        s = { words := (wordsOfBytes bytes).toArray } := by
  unfold ofBytes?
  split_ifs with h
  · simp [h]
  · rw [ofWords?_eq_ok]
    simp [not_not.1 h]

/-- The bytes are those of a store: whole words, at least the header, with the mark and the version
first, and one more word for every 32 signals that the third word counts. -/
structure ProperBytes (bytes : List UInt8) : Prop where
  whole : bytes.length % 4 = 0
  long : 64 ≤ bytes.length
  mark : wordAt bytes 0 = 0x57495245
  layout : wordAt bytes 1 = 1
  count : bytes.length / 4 = 16 + (wordAt bytes 2 + 31) / 32

theorem getElem?_eq_some_iff_wordAt {words : List UInt32} {k : Nat} (h : k < words.length)
    (w : UInt32) : words[k]? = some w ↔ wordAt (words.flatMap wordBytes) k = w.toNat := by
  rw [wordAt_flatMap h, List.getElem?_eq_getElem h, Option.some.injEq, UInt32.toNat_inj]

theorem properBytes_flatMap (words : List UInt32) :
    ProperBytes (words.flatMap wordBytes) ↔ Proper words := by
  have hlength := length_flatMap_wordBytes words
  constructor
  · intro h
    have hlong : 16 ≤ words.length := by
      have := h.long
      omega
    refine ⟨hlong, ?_, ?_, words[2], List.getElem?_eq_getElem (by omega), ?_⟩
    · exact (getElem?_eq_some_iff_wordAt (by omega) _).2 h.mark
    · exact (getElem?_eq_some_iff_wordAt (by omega) _).2 h.layout
    · have hcount := h.count
      rw [wordAt_flatMap (by omega)] at hcount
      rw [wordsFor, headerWords]
      omega
  · rintro ⟨hlong, hmark, hlayout, count, hcount, hwords⟩
    rw [headerWords] at hlong
    rw [wordsFor, headerWords] at hwords
    refine ⟨by omega, by omega, ?_, ?_, ?_⟩
    · exact (getElem?_eq_some_iff_wordAt (by omega) _).1 hmark
    · exact (getElem?_eq_some_iff_wordAt (by omega) _).1 hlayout
    · rw [(getElem?_eq_some_iff_wordAt (by omega) _).1 hcount]
      omega

/-- Bytes are accepted exactly if they are those of a store. -/
theorem ofBytes?_accepts (bytes : List UInt8) :
    (∃ s, ofBytes? bytes = .ok s) ↔ ProperBytes bytes := by
  constructor
  · rintro ⟨s, h⟩
    obtain ⟨hwhole, hproper, -⟩ := ofBytes?_eq_ok.1 h
    have := (properBytes_flatMap _).2 hproper
    rwa [flatMap_wordsOfBytes hwhole] at this
  · intro h
    refine ⟨_, ofBytes?_eq_ok.2 ⟨h.whole, ?_, rfl⟩⟩
    rw [← flatMap_wordsOfBytes h.whole] at h
    exact (properBytes_flatMap _).1 h

/-- Accepted bytes are given back. -/
theorem toBytes_of_ofBytes? {bytes : List UInt8} {s : Store} (h : ofBytes? bytes = .ok s) :
    s.toBytes = bytes := by
  obtain ⟨hwhole, -, rfl⟩ := ofBytes?_eq_ok.1 h
  exact flatMap_wordsOfBytes hwhole

/-! ## Stores that are reached -/

variable {signals : Nat} {s : Store}

/-- The first words of a new store. -/
theorem getElem?_new_of_lt {k : Nat} (h : k < 3) :
    (new signals).words[k]? = #[magic, version, UInt32.ofNat signals][k]? :=
  Array.getElem?_append_left h

theorem LaidOut.proper (h : s.LaidOut signals) (hsmall : signals < 2 ^ 32) :
    Proper s.words.toList where
  long := by
    rw [Array.length_toList, h.sized, wordsFor]
    exact Nat.le_add_right _ _
  mark := by
    rw [Array.getElem?_toList, h.fixed 0 (by decide) (by decide),
      getElem?_new_of_lt (by decide)]
    rfl
  layout := by
    rw [Array.getElem?_toList, h.fixed 1 (by decide) (by decide),
      getElem?_new_of_lt (by decide)]
    rfl
  count := by
    refine ⟨UInt32.ofNat signals, ?_, ?_⟩
    · rw [Array.getElem?_toList, h.fixed 2 (by decide) (by decide),
      getElem?_new_of_lt (by decide)]
      rfl
    · rw [Array.length_toList, h.sized, UInt32.toNat_ofNat', Nat.mod_eq_of_lt hsmall]

theorem LaidOut.ofWords? (h : s.LaidOut signals) (hsmall : signals < 2 ^ 32) :
    Store.ofWords? s.words.toList = .ok s :=
  ofWords?_eq_ok.2 ⟨h.proper hsmall, rfl⟩

theorem LaidOut.ofBytes? (h : s.LaidOut signals) (hsmall : signals < 2 ^ 32) :
    Store.ofBytes? s.toBytes = .ok s := by
  have hlength := length_flatMap_wordBytes s.words.toList
  rw [Store.ofBytes?, toBytes, if_neg (by omega), wordsOfBytes_flatMap]
  exact h.ofWords? hsmall

/-- The words and the bytes of a store are a faithful copy of it. A store that actions on its signals
lead to has the layout of a new one, no further action on its signals fails, and both its words and
its bytes are accepted as that store. Conversely the bytes that are accepted are exactly the proper
ones, and the store gives the same bytes back. -/
theorem exchange :
    (∀ signals : Nat, signals < 2 ^ 32 →
      ∀ ops : List StoreOp, (∀ op ∈ ops, ∀ id ∈ op.ids, id < signals) →
      let s := ops.foldl StoreOp.after (new signals)
      s.LaidOut signals ∧
      (∀ op : StoreOp, (∀ id ∈ op.ids, id < signals) → op.HasRoom →
        ∃ s', op.run s = .ok () s' ∧ op.after s = s') ∧
      Store.ofWords? s.words.toList = .ok s ∧
      Store.ofBytes? s.toBytes = .ok s) ∧
    ∀ bytes : List UInt8,
      ((∃ s, Store.ofBytes? bytes = .ok s) ↔ ProperBytes bytes) ∧
      ∀ s, Store.ofBytes? bytes = .ok s → s.toBytes = bytes := by
  refine ⟨?_, fun bytes => ⟨ofBytes?_accepts bytes, fun _ => toBytes_of_ofBytes?⟩⟩
  intro signals hsmall ops hops s
  have hs : s.LaidOut signals := StoreOp.laidOut_foldl hops (new_laidOut signals)
  refine ⟨hs, ?_, hs.ofWords? hsmall, hs.ofBytes? hsmall⟩
  intro op hids hroom
  obtain ⟨⟨⟩, s', hrun, -⟩ := StoreOp.run_within hids hroom s hs.sized
  exact ⟨s', hrun, by rw [StoreOp.after, hrun, left]⟩

/-- A gate whose output is in the second word, a swap of two flip-flops, and a count of one cycle. -/
def fortyOneSignals : List StoreOp :=
  [.write 0 true, .writeBits [1, 2] 3, .evaluate [0, 1, 40], .capture [1, 0, 3, 1] #[0],
    .incrementCycle]

theorem exchange_fortyOneSignals :
    let s := fortyOneSignals.foldl StoreOp.after (new 41)
    s.LaidOut 41 ∧ Store.ofBytes? s.toBytes = .ok s ∧ s.cycle = 1 ∧ s.data = [5, 0] := by
  have h := exchange.1 41 (by decide) fortyOneSignals (by decide)
  exact ⟨h.1, h.2.2.2, by decide +kernel, by decide +kernel⟩

end Store

end NandHdl
