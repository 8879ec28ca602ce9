-- SUMMARY: Stores from outside: `Store.ofWords?` checks a buffer of words, `Store.toBytes` and `Store.ofBytes?` exchange bytes.
import NandHdl.Store.Basic

/-!
# Exchanging stores

A buffer of words is a store if it has a header with the right mark and version, and as many words
as its number of signals needs. In bytes a word takes four, the lowest first.
-/

namespace NandHdl

/-- Why a buffer is no store. -/
inductive StoreError where
  | badMagic (value : UInt32)
  | badVersion (value : UInt32)
  | badLength (expected actual : Nat)
  deriving Repr, DecidableEq, Inhabited

/-- Eight hexadecimal digits. -/
def hexWord (w : UInt32) : String :=
  let digits := Nat.toDigits 16 w.toNat
  String.ofList (List.replicate (8 - digits.length) '0' ++ digits)

/-- The sentence for a buffer that is refused. -/
def StoreError.message : StoreError → String
  | .badMagic value => "bad magic 0x" ++ hexWord value ++ ", expected 0x" ++ hexWord Store.magic
  | .badVersion value =>
    "unsupported store version " ++ toString value.toNat ++ ", expected " ++
      toString Store.version.toNat
  | .badLength expected actual =>
    "buffer holds " ++ toString actual ++ " words, " ++ toString expected ++ " needed"

namespace Store

/-- The store with the given words. -/
def ofWords? (words : List UInt32) : Except StoreError Store :=
  match words with
  | mark :: layout :: count :: _ =>
    if words.length < headerWords then .error (.badLength headerWords words.length)
    else if mark ≠ magic then .error (.badMagic mark)
    else if layout ≠ version then .error (.badVersion layout)
    else if words.length ≠ wordsFor count.toNat then
      .error (.badLength (wordsFor count.toNat) words.length)
    else .ok { words := words.toArray }
  | _ => .error (.badLength headerWords words.length)

/-- The four bytes of a word, lowest first. -/
def wordBytes (w : UInt32) : List UInt8 :=
  [w.toUInt8, (w >>> 8).toUInt8, (w >>> 16).toUInt8, (w >>> 24).toUInt8]

/-- The word of four bytes, lowest first. -/
def wordOfBytes (b0 b1 b2 b3 : UInt8) : UInt32 :=
  b0.toUInt32 ||| b1.toUInt32 <<< 8 ||| b2.toUInt32 <<< 16 ||| b3.toUInt32 <<< 24

/-- The words of a row of bytes. Up to three bytes at the end make no word. -/
def wordsOfBytes : List UInt8 → List UInt32
  | b0 :: b1 :: b2 :: b3 :: rest => wordOfBytes b0 b1 b2 b3 :: wordsOfBytes rest
  | _ => []

/-- The bytes of a store. -/
def toBytes (s : Store) : List UInt8 := s.words.toList.flatMap wordBytes

/-- The store with the given bytes. -/
def ofBytes? (bytes : List UInt8) : Except StoreError Store :=
  if bytes.length % 4 ≠ 0 then .error (.badLength ((bytes.length + 3) / 4) (bytes.length / 4))
  else ofWords? (wordsOfBytes bytes)

end Store

end NandHdl
