/-!
# The digest SHA-256

The message is padded to blocks of 64 bytes; each block is spread over 64 words and mixed into a
state of eight words.
-/

namespace EventSchema

namespace Digest

/-- The words added in the rounds: fractions of the cube roots of the first primes. -/
def roundWords : List UInt32 :=
  [
    0x428a2f98, 0x71374491, 0xb5c0fbcf, 0xe9b5dba5, 0x3956c25b, 0x59f111f1, 0x923f82a4, 0xab1c5ed5,
    0xd807aa98, 0x12835b01, 0x243185be, 0x550c7dc3, 0x72be5d74, 0x80deb1fe, 0x9bdc06a7, 0xc19bf174,
    0xe49b69c1, 0xefbe4786, 0x0fc19dc6, 0x240ca1cc, 0x2de92c6f, 0x4a7484aa, 0x5cb0a9dc, 0x76f988da,
    0x983e5152, 0xa831c66d, 0xb00327c8, 0xbf597fc7, 0xc6e00bf3, 0xd5a79147, 0x06ca6351, 0x14292967,
    0x27b70a85, 0x2e1b2138, 0x4d2c6dfc, 0x53380d13, 0x650a7354, 0x766a0abb, 0x81c2c92e, 0x92722c85,
    0xa2bfe8a1, 0xa81a664b, 0xc24b8b70, 0xc76c51a3, 0xd192e819, 0xd6990624, 0xf40e3585, 0x106aa070,
    0x19a4c116, 0x1e376c08, 0x2748774c, 0x34b0bcb5, 0x391c0cb3, 0x4ed8aa4a, 0x5b9cca4f, 0x682e6ff3,
    0x748f82ee, 0x78a5636f, 0x84c87814, 0x8cc70208, 0x90befffa, 0xa4506ceb, 0xbef9a3f7, 0xc67178f2
  ]

/-- The state of the digest. -/
structure State where
  a : UInt32
  b : UInt32
  c : UInt32
  d : UInt32
  e : UInt32
  f : UInt32
  g : UInt32
  h : UInt32

/-- The state at the start: fractions of the square roots of the first primes. -/
def State.initial : State :=
  ⟨0x6a09e667, 0xbb67ae85, 0x3c6ef372, 0xa54ff53a, 0x510e527f, 0x9b05688c, 0x1f83d9ab, 0x5be0cd19⟩

/-- The words of a state. -/
def State.words (s : State) : List UInt32 := [s.a, s.b, s.c, s.d, s.e, s.f, s.g, s.h]

/-- The sum of two states, word by word. -/
def State.add (s t : State) : State :=
  ⟨s.a + t.a, s.b + t.b, s.c + t.c, s.d + t.d, s.e + t.e, s.f + t.f, s.g + t.g, s.h + t.h⟩

/-- A word rotated to the right. -/
def rotate (x : UInt32) (n : UInt32) : UInt32 := (x >>> n) ||| (x <<< (32 - n))

/-- One round. -/
def State.round (s : State) (constant word : UInt32) : State :=
  let mixE := rotate s.e 6 ^^^ rotate s.e 11 ^^^ rotate s.e 25
  let choice := (s.e &&& s.f) ^^^ (~~~s.e &&& s.g)
  let first := s.h + mixE + choice + constant + word
  let mixA := rotate s.a 2 ^^^ rotate s.a 13 ^^^ rotate s.a 22
  let majority := (s.a &&& s.b) ^^^ (s.a &&& s.c) ^^^ (s.b &&& s.c)
  ⟨first + (mixA + majority), s.a, s.b, s.c, s.d + first, s.e, s.f, s.g⟩

/-- The word behind sixteen others, given last first. -/
def nextWord (window : List UInt32) : UInt32 :=
  let at' (i : Nat) : UInt32 := window.getD i 0
  let far := at' 14
  let near := at' 1
  let mixFar := rotate far 7 ^^^ rotate far 18 ^^^ (far >>> 3)
  let mixNear := rotate near 17 ^^^ rotate near 19 ^^^ (near >>> 10)
  at' 15 + mixFar + at' 6 + mixNear

/-- The words of a block spread over more rounds, last first. -/
def spread : Nat → List UInt32 → List UInt32
  | 0, words => words
  | n + 1, words => spread n (nextWord words :: words)

/-- A word from four bytes. -/
def wordOfBytes : List UInt8 → UInt32 :=
  List.foldl (fun word byte => (word <<< 8) ||| byte.toUInt32) 0

/-- The four bytes of a word. -/
def bytesOfWord (x : UInt32) : List UInt8 :=
  [(x >>> 24).toUInt8, (x >>> 16).toUInt8, (x >>> 8).toUInt8, x.toUInt8]

/-- A list cut into pieces of a positive size from its end on; the first may be shorter. -/
def chunksOf {α : Type} (size : Nat) (items : List α) : List (List α) :=
  (items.foldr (fun item (count, chunks) =>
      if count = 0 then (size - 1, [item] :: chunks)
      else
        match chunks with
        | chunk :: rest => (count - 1, (item :: chunk) :: rest)
        | [] => (size - 1, [[item]]))
    (0, ([] : List (List α)))).2

/-- The state after a block of 64 bytes. -/
def State.absorb (s : State) (block : List UInt8) : State :=
  let words := (chunksOf 4 block).map wordOfBytes
  let rounds := roundWords.zip (spread 48 words.reverse).reverse
  s.add (rounds.foldl (fun t (constant, word) => t.round constant word) s)

/-- A length of eight bytes. -/
def lengthBytes (n : Nat) : List UInt8 :=
  (List.range 8).map fun i => (n >>> (8 * (7 - i))).toUInt8

/-- A message with its end marked and its length in bits behind it, in whole blocks. -/
def pad (message : List UInt8) : List UInt8 :=
  let length := message.length
  let zeros := (119 - length % 64) % 64
  message ++ 0x80 :: List.replicate zeros 0 ++ lengthBytes (8 * length)

/-- The digest of a message. -/
def sha256 (message : List UInt8) : List UInt8 :=
  ((chunksOf 64 (pad message)).foldl State.absorb State.initial).words.flatMap bytesOfWord

/-- Bytes in lower-case hexadecimal digits. -/
def hex (bytes : List UInt8) : String :=
  let digit (n : UInt8) : Char := (Nat.digitChar n.toNat)
  String.ofList (bytes.flatMap fun b => [digit (b / 16), digit (b % 16)])

/-- The digest of a message in hexadecimal digits. -/
def checksum (message : List UInt8) : String := hex (sha256 message)

/-- The bytes of a text. -/
def bytesOf (text : String) : List UInt8 := text.toUTF8.toList

end Digest

end EventSchema
