import Kascov.Passport.Badge

/-!
# The hash of the JS client

`sha256Hex`, in plain words of 32 bits: the padded bytes are read in blocks of sixteen
words, and the eight words of the state are written as hex digits.
-/

namespace Kascov.Sha256

abbrev Word := BitVec 32

/-- `K`. -/
def roundWords : List Word :=
  [0x428a2f98, 0x71374491, 0xb5c0fbcf, 0xe9b5dba5, 0x3956c25b, 0x59f111f1, 0x923f82a4, 0xab1c5ed5,
    0xd807aa98, 0x12835b01, 0x243185be, 0x550c7dc3, 0x72be5d74, 0x80deb1fe, 0x9bdc06a7, 0xc19bf174,
    0xe49b69c1, 0xefbe4786, 0x0fc19dc6, 0x240ca1cc, 0x2de92c6f, 0x4a7484aa, 0x5cb0a9dc, 0x76f988da,
    0x983e5152, 0xa831c66d, 0xb00327c8, 0xbf597fc7, 0xc6e00bf3, 0xd5a79147, 0x06ca6351, 0x14292967,
    0x27b70a85, 0x2e1b2138, 0x4d2c6dfc, 0x53380d13, 0x650a7354, 0x766a0abb, 0x81c2c92e, 0x92722c85,
    0xa2bfe8a1, 0xa81a664b, 0xc24b8b70, 0xc76c51a3, 0xd192e819, 0xd6990624, 0xf40e3585, 0x106aa070,
    0x19a4c116, 0x1e376c08, 0x2748774c, 0x34b0bcb5, 0x391c0cb3, 0x4ed8aa4a, 0x5b9cca4f, 0x682e6ff3,
    0x748f82ee, 0x78a5636f, 0x84c87814, 0x8cc70208, 0x90befffa, 0xa4506ceb, 0xbef9a3f7, 0xc67178f2]

def rotr (x : Word) (n : Nat) : Word := (x >>> n) ||| (x <<< (32 - n))

/-- `setUint32`. -/
def word32 (n : Nat) : Bytes := [24, 16, 8, 0].map fun k ↦ UInt8.ofNat (n / 2 ^ k)

/-- `padded`: a marker, zeros, and the length in bits. -/
def padded (bytes : Bytes) : Bytes :=
  let bitLen := bytes.length * 8
  let size := (bytes.length + 8) / 64 * 64 + 64
  bytes ++ 0x80 :: List.replicate (size - bytes.length - 9) 0 ++
    word32 (bitLen / 4294967296) ++ word32 (bitLen % 4294967296)

/-- `getUint32`. -/
def readWord (bytes : Bytes) : Word :=
  BitVec.ofNat 32 ((bytes.take 4).foldl (fun n b ↦ 256 * n + b.toNat) 0)

/-- The words of a block, the last first. -/
def blockWords (block : Bytes) : List Word :=
  ((List.range 16).map fun i ↦ readWord (block.drop (4 * i))).reverse

/-- The next word of the schedule, from those before it, the last first. -/
def scheduleStep (w : List Word) : List Word :=
  let x := w.getD 14 0
  let y := w.getD 1 0
  let s0 := rotr x 7 ^^^ rotr x 18 ^^^ (x >>> 3)
  let s1 := rotr y 17 ^^^ rotr y 19 ^^^ (y >>> 10)
  (w.getD 15 0 + s0 + w.getD 6 0 + s1) :: w

/-- The eight words of the state. -/
structure State where
  a : Word
  b : Word
  c : Word
  d : Word
  e : Word
  f : Word
  g : Word
  h : Word

def initial : State :=
  ⟨0x6a09e667, 0xbb67ae85, 0x3c6ef372, 0xa54ff53a, 0x510e527f, 0x9b05688c, 0x1f83d9ab, 0x5be0cd19⟩

/-- One round, with a constant and a word of the schedule. -/
def round (s : State) (kw : Word × Word) : State :=
  let t1 := s.h + (rotr s.e 6 ^^^ rotr s.e 11 ^^^ rotr s.e 25) +
    ((s.e &&& s.f) ^^^ (~~~s.e &&& s.g)) + kw.1 + kw.2
  let t2 := (rotr s.a 2 ^^^ rotr s.a 13 ^^^ rotr s.a 22) +
    ((s.a &&& s.b) ^^^ (s.a &&& s.c) ^^^ (s.b &&& s.c))
  ⟨t1 + t2, s.a, s.b, s.c, s.d + t1, s.e, s.f, s.g⟩

/-- One turn of the loop over the blocks. -/
def compress (s : State) (block : Bytes) : State :=
  let w := ((List.range 48).foldl (fun w _ ↦ scheduleStep w) (blockWords block)).reverse
  let t := (roundWords.zip w).foldl round s
  ⟨s.a + t.a, s.b + t.b, s.c + t.c, s.d + t.d, s.e + t.e, s.f + t.f, s.g + t.g, s.h + t.h⟩

/-- A half of a byte, in hex. -/
def hexUnit (n : Nat) : CodeUnit :=
  Fin.ofNat 65536 (if n % 16 < 10 then 48 + n % 16 else 87 + n % 16)

/-- `toString(16).padStart(8, '0')`. -/
def hexWord (w : Word) : JsString :=
  [7, 6, 5, 4, 3, 2, 1, 0].map fun i ↦ hexUnit (w.toNat / 16 ^ i)

/-- The state after the whole input. -/
def digest (bytes : Bytes) : State :=
  let bytes := padded bytes
  (List.range (bytes.length / 64)).foldl
    (fun s i ↦ compress s ((bytes.drop (64 * i)).take 64)) initial

theorem isHexUnit_hexUnit (n : Nat) : isHexUnit (hexUnit n) = true := by
  have hall : ∀ k < 16, isHexUnit (hexUnit k) = true := by decide
  have hmod := hall (n % 16) (Nat.mod_lt n (by decide))
  unfold hexUnit at hmod ⊢
  rwa [Nat.mod_mod] at hmod

theorem hexWord_units (w : Word) : ∀ u ∈ hexWord w, isHexUnit u = true := by
  intro u hu
  obtain ⟨i, -, rfl⟩ := List.mem_map.mp hu
  exact isHexUnit_hexUnit _

/-- `sha256Hex`. -/
def sha256Hex (bytes : Bytes) : Hex64 :=
  let s := digest bytes
  ⟨[s.a, s.b, s.c, s.d, s.e, s.f, s.g, s.h].flatMap hexWord, by
    have hunits : ∀ u ∈ [s.a, s.b, s.c, s.d, s.e, s.f, s.g, s.h].flatMap hexWord,
        isHexUnit u = true := by
      intro u hu
      obtain ⟨w, -, hu⟩ := List.mem_flatMap.mp hu
      exact hexWord_units w u hu
    simp only [isHex64, Bool.and_eq_true, decide_eq_true_eq, List.all_eq_true]
    exact ⟨rfl, hunits⟩⟩

/-- The digest of `abc` begins with `ba7816bf`. -/
example : (sha256Hex [97, 98, 99]).val.take 8 = jsUnits "ba7816bf".toList := by
  decide +kernel

end Kascov.Sha256
