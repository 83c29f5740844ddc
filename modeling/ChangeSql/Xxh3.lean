/-
The 64-bit hash of `xxhash.h` without a seed, at once and in pieces.

A pointer into the input or into the secret is the list of the bytes from it
on. `Kernel` is one of the pairs of functions for the long inputs, which are
there for several kinds of vectors; `Kernel.scalar` is the universal one. Of
the state, the members for seeds and custom secrets are left out.
-/

import ChangeSql.Bytes

namespace ChangeSql.Xxh3

def PRIME32_1 : UInt64 := 0x9E3779B1
def PRIME32_2 : UInt64 := 0x85EBCA77
def PRIME32_3 : UInt64 := 0xC2B2AE3D
def PRIME64_1 : UInt64 := 0x9E3779B185EBCA87
def PRIME64_2 : UInt64 := 0xC2B2AE3D27D4EB4F
def PRIME64_3 : UInt64 := 0x165667B19E3779F9
def PRIME64_4 : UInt64 := 0x85EBCA77C2B2AE63
def PRIME64_5 : UInt64 := 0x27D4EB2F165667C5

def STRIPE_LEN : Nat := 64
def SECRET_CONSUME_RATE : Nat := 8
def SECRET_SIZE_MIN : Nat := 136
def MIDSIZE_MAX : Nat := 240
def MIDSIZE_STARTOFFSET : Nat := 3
def MIDSIZE_LASTOFFSET : Nat := 17
def SECRET_LASTACC_START : Nat := 7
def SECRET_MERGEACCS_START : Nat := 11
def INTERNALBUFFER_SIZE : Nat := 256
def INTERNALBUFFER_STRIPES : Nat := INTERNALBUFFER_SIZE / STRIPE_LEN

def kSecret : Bytes :=
  [0xb8, 0xfe, 0x6c, 0x39, 0x23, 0xa4, 0x4b, 0xbe, 0x7c, 0x01, 0x81, 0x2c, 0xf7, 0x21, 0xad, 0x1c,
    0xde, 0xd4, 0x6d, 0xe9, 0x83, 0x90, 0x97, 0xdb, 0x72, 0x40, 0xa4, 0xa4, 0xb7, 0xb3, 0x67, 0x1f,
    0xcb, 0x79, 0xe6, 0x4e, 0xcc, 0xc0, 0xe5, 0x78, 0x82, 0x5a, 0xd0, 0x7d, 0xcc, 0xff, 0x72, 0x21,
    0xb8, 0x08, 0x46, 0x74, 0xf7, 0x43, 0x24, 0x8e, 0xe0, 0x35, 0x90, 0xe6, 0x81, 0x3a, 0x26, 0x4c,
    0x3c, 0x28, 0x52, 0xbb, 0x91, 0xc3, 0x00, 0xcb, 0x88, 0xd0, 0x65, 0x8b, 0x1b, 0x53, 0x2e, 0xa3,
    0x71, 0x64, 0x48, 0x97, 0xa2, 0x0d, 0xf9, 0x4e, 0x38, 0x19, 0xef, 0x46, 0xa9, 0xde, 0xac, 0xd8,
    0xa8, 0xfa, 0x76, 0x3f, 0xe3, 0x9c, 0x34, 0x3f, 0xf9, 0xdc, 0xbb, 0xc7, 0xc7, 0x0b, 0x4f, 0x1d,
    0x8a, 0x51, 0xe0, 0x4b, 0xcd, 0xb4, 0x59, 0x31, 0xc8, 0x9f, 0x7e, 0xc9, 0xd9, 0x78, 0x73, 0x64,
    0xea, 0xc5, 0xac, 0x83, 0x34, 0xd3, 0xeb, 0xc3, 0xc5, 0x81, 0xa0, 0xff, 0xfa, 0x13, 0x63, 0xeb,
    0x17, 0x0d, 0xdd, 0x51, 0xb7, 0xf0, 0xda, 0x49, 0xd3, 0x16, 0x55, 0x26, 0x29, 0xd4, 0x68, 0x9e,
    0x2b, 0x16, 0xbe, 0x58, 0x7d, 0x47, 0xa1, 0xfc, 0x8f, 0xf8, 0xb8, 0xd1, 0x7a, 0xd0, 0x31, 0xce,
    0x45, 0xcb, 0x3a, 0x8f, 0x95, 0x16, 0x04, 0x28, 0xaf, 0xd7, 0xfb, 0xca, 0xbb, 0x4b, 0x40, 0x7e]

def SECRET_DEFAULT_SIZE : Nat := 192

/-! ### Words -/

def littleEndian : Bytes → Nat
  | [] => 0
  | byte :: bytes => byte.toNat + 256 * littleEndian bytes

def readLE32 (ptr : Bytes) : UInt32 :=
  UInt32.ofNat (littleEndian (ptr.take 4))

def readLE64 (ptr : Bytes) : UInt64 :=
  UInt64.ofNat (littleEndian (ptr.take 8))

def rotl64 (x r : UInt64) : UInt64 :=
  (x <<< r) ||| (x >>> (64 - r))

def swap32 (x : UInt32) : UInt32 :=
  let byte (mask : UInt32) (shifted : UInt32) := shifted &&& mask
  byte 0xff000000 (x <<< 24) ||| byte 0x00ff0000 (x <<< 8) ||| byte 0x0000ff00 (x >>> 8) |||
    byte 0x000000ff (x >>> 24)

def swap64 (x : UInt64) : UInt64 :=
  let byte (mask : UInt64) (shifted : UInt64) := shifted &&& mask
  byte 0xff00000000000000 (x <<< 56) ||| byte 0x00ff000000000000 (x <<< 40) |||
    byte 0x0000ff0000000000 (x <<< 24) ||| byte 0x000000ff00000000 (x <<< 8) |||
    byte 0x00000000ff000000 (x >>> 8) ||| byte 0x0000000000ff0000 (x >>> 24) |||
    byte 0x000000000000ff00 (x >>> 40) ||| byte 0x00000000000000ff (x >>> 56)

def mult32to64 (x y : UInt64) : UInt64 :=
  (x &&& 0xFFFFFFFF) * (y &&& 0xFFFFFFFF)

def mul128Fold64 (lhs rhs : UInt64) : UInt64 :=
  let product := lhs.toNat * rhs.toNat
  UInt64.ofNat product ^^^ UInt64.ofNat (product >>> 64)

def xorshift64 (v64 shift : UInt64) : UInt64 :=
  v64 ^^^ (v64 >>> shift)

def avalanche (h64 : UInt64) : UInt64 :=
  xorshift64 (xorshift64 h64 37 * 0x165667919E3779F9) 32

def avalanche64 (h64 : UInt64) : UInt64 :=
  xorshift64 (xorshift64 (xorshift64 h64 33 * PRIME64_2) 29 * PRIME64_3) 32

def rrmxmx (h64 len : UInt64) : UInt64 :=
  let h64 := h64 ^^^ (rotl64 h64 49 ^^^ rotl64 h64 24)
  let h64 := h64 * 0x9FB21C651E98DF25
  let h64 := h64 ^^^ ((h64 >>> 35) + len)
  let h64 := h64 * 0x9FB21C651E98DF25
  xorshift64 h64 28

/-! ### Short inputs -/

def len1to3 (input secret : Bytes) (seed : UInt64) : UInt64 :=
  let len := input.length
  let c1 := (input.getD 0 0).toUInt32
  let c2 := (input.getD (len >>> 1) 0).toUInt32
  let c3 := (input.getD (len - 1) 0).toUInt32
  let combined := (c1 <<< 16) ||| (c2 <<< 24) ||| c3 ||| (UInt32.ofNat len <<< 8)
  let bitflip := (readLE32 secret ^^^ readLE32 (secret.drop 4)).toUInt64 + seed
  avalanche64 (combined.toUInt64 ^^^ bitflip)

def len4to8 (input secret : Bytes) (seed : UInt64) : UInt64 :=
  let len := input.length
  let seed := seed ^^^ ((swap32 seed.toUInt32).toUInt64 <<< 32)
  let input1 := readLE32 input
  let input2 := readLE32 (input.drop (len - 4))
  let bitflip := (readLE64 (secret.drop 8) ^^^ readLE64 (secret.drop 16)) - seed
  let input64 := input2.toUInt64 + (input1.toUInt64 <<< 32)
  rrmxmx (input64 ^^^ bitflip) (UInt64.ofNat len)

def len9to16 (input secret : Bytes) (seed : UInt64) : UInt64 :=
  let len := input.length
  let bitflip1 := (readLE64 (secret.drop 24) ^^^ readLE64 (secret.drop 32)) + seed
  let bitflip2 := (readLE64 (secret.drop 40) ^^^ readLE64 (secret.drop 48)) - seed
  let inputLo := readLE64 input ^^^ bitflip1
  let inputHi := readLE64 (input.drop (len - 8)) ^^^ bitflip2
  avalanche (UInt64.ofNat len + swap64 inputLo + inputHi + mul128Fold64 inputLo inputHi)

def len0to16 (input secret : Bytes) (seed : UInt64) : UInt64 :=
  let len := input.length
  if len > 8 then len9to16 input secret seed
  else if len ≥ 4 then len4to8 input secret seed
  else if len ≠ 0 then len1to3 input secret seed
  else avalanche64 (seed ^^^ (readLE64 (secret.drop 56) ^^^ readLE64 (secret.drop 64)))

def mix16B (input secret : Bytes) (seed64 : UInt64) : UInt64 :=
  mul128Fold64 (readLE64 input ^^^ (readLE64 secret + seed64))
    (readLE64 (input.drop 8) ^^^ (readLE64 (secret.drop 8) - seed64))

def len17to128 (input secret : Bytes) (seed : UInt64) : UInt64 :=
  let len := input.length
  let mix (i j : Nat) := mix16B (input.drop i) (secret.drop j) seed
  let acc := UInt64.ofNat len * PRIME64_1
  let acc := if len > 96 then acc + mix 48 96 + mix (len - 64) 112 else acc
  let acc := if len > 64 then acc + mix 32 64 + mix (len - 48) 80 else acc
  let acc := if len > 32 then acc + mix 16 32 + mix (len - 32) 48 else acc
  avalanche (acc + mix 0 0 + mix (len - 16) 16)

def len129to240 (input secret : Bytes) (seed : UInt64) : UInt64 :=
  let len := input.length
  let mix (i j : Nat) := mix16B (input.drop i) (secret.drop j) seed
  let nbRounds := len / 16
  let acc := (List.range 8).foldl (fun acc i => acc + mix (16 * i) (16 * i))
    (UInt64.ofNat len * PRIME64_1)
  let acc := (List.range' 8 (nbRounds - 8)).foldl
    (fun acc i => acc + mix (16 * i) (16 * (i - 8) + MIDSIZE_STARTOFFSET)) (avalanche acc)
  avalanche (acc + mix (len - 16) (SECRET_SIZE_MIN - MIDSIZE_LASTOFFSET))

/-! ### Long inputs -/

abbrev Acc := List UInt64

/-- `f_acc512` and `f_scramble`. The first one is given the stripe it reads. -/
structure Kernel where
  accumulate512 : Acc → Bytes → Bytes → Acc
  scrambleAcc : Acc → Bytes → Acc

def accumulate512Scalar (acc : Acc) (input secret : Bytes) : Acc :=
  (List.range 8).foldl (fun acc i =>
    let dataVal := readLE64 (input.drop (8 * i))
    let dataKey := dataVal ^^^ readLE64 (secret.drop (i * 8))
    let acc := acc.modify (i ^^^ 1) (· + dataVal)
    acc.modify i (· + mult32to64 (dataKey &&& 0xFFFFFFFF) (dataKey >>> 32))) acc

def scrambleAccScalar (acc : Acc) (secret : Bytes) : Acc :=
  acc.mapIdx fun i acc64 =>
    (xorshift64 acc64 47 ^^^ readLE64 (secret.drop (8 * i))) * PRIME32_1

def Kernel.scalar : Kernel :=
  { accumulate512 := accumulate512Scalar
    scrambleAcc := scrambleAccScalar }

def initAcc : Acc :=
  [PRIME32_3, PRIME64_1, PRIME64_2, PRIME64_3, PRIME64_4, PRIME32_2, PRIME64_5, PRIME32_1]

def mix2Accs (acc : Acc) (secret : Bytes) : UInt64 :=
  mul128Fold64 (acc.getD 0 0 ^^^ readLE64 secret) (acc.getD 1 0 ^^^ readLE64 (secret.drop 8))

def mergeAccs (acc : Acc) (secret : Bytes) (start : UInt64) : UInt64 :=
  avalanche ((List.range 4).foldl
    (fun result64 i => result64 + mix2Accs (acc.drop (2 * i)) (secret.drop (16 * i))) start)

section

variable (kernel : Kernel)

def accumulate : Nat → Acc → Bytes → Bytes → Acc
  | 0, acc, _, _ => acc
  | nbStripes + 1, acc, input, secret =>
      accumulate nbStripes (kernel.accumulate512 acc (input.take STRIPE_LEN) secret)
        (input.drop STRIPE_LEN) (secret.drop SECRET_CONSUME_RATE)

/-- The loop over the full blocks, which also answers where it has come to. -/
def hashBlocks (nbStripesPerBlock : Nat) (secret : Bytes) : Nat → Acc → Bytes → Acc × Bytes
  | 0, acc, input => (acc, input)
  | nbBlocks + 1, acc, input =>
      let acc := accumulate kernel nbStripesPerBlock acc input secret
      let acc := kernel.scrambleAcc acc (secret.drop (secret.length - STRIPE_LEN))
      hashBlocks nbStripesPerBlock secret nbBlocks acc (input.drop (STRIPE_LEN * nbStripesPerBlock))

def hashLongInternalLoop (acc : Acc) (input secret : Bytes) : Acc :=
  let len := input.length
  let nbStripesPerBlock := (secret.length - STRIPE_LEN) / SECRET_CONSUME_RATE
  let blockLen := STRIPE_LEN * nbStripesPerBlock
  let nbBlocks := (len - 1) / blockLen
  let (acc, last) := hashBlocks kernel nbStripesPerBlock secret nbBlocks acc input
  let nbStripes := ((len - 1) - blockLen * nbBlocks) / STRIPE_LEN
  let acc := accumulate kernel nbStripes acc last secret
  kernel.accumulate512 acc (input.drop (len - STRIPE_LEN))
    (secret.drop (secret.length - STRIPE_LEN - SECRET_LASTACC_START))

def hashLong (input secret : Bytes) : UInt64 :=
  mergeAccs (hashLongInternalLoop kernel initAcc input secret) (secret.drop SECRET_MERGEACCS_START)
    (UInt64.ofNat input.length * PRIME64_1)

/-- `XXH3_64bits_internal`, where `f_hashLong` is one that does not use the seed. -/
def hash64Internal (input : Bytes) (seed64 : UInt64) (secret : Bytes) : UInt64 :=
  let len := input.length
  if len ≤ 16 then len0to16 input secret seed64
  else if len ≤ 128 then len17to128 input secret seed64
  else if len ≤ MIDSIZE_MAX then len129to240 input secret seed64
  else hashLong kernel input secret

def hash64 (input : Bytes) : UInt64 :=
  hash64Internal kernel input 0 kSecret

end

example : hash64 .scalar (ascii "abc") = 0x78af5f94892f3950 := by
  decide

/-! ### Streaming -/

structure State where
  acc : Acc
  buffer : Bytes
  bufferedSize : Nat
  nbStripesSoFar : Nat
  totalLen : UInt64
  nbStripesPerBlock : Nat
  secretLimit : Nat
  extSecret : Bytes
  deriving DecidableEq, Repr

/-- `XXH3_64bits_reset`. The buffer is left as it is. -/
def reset (state : State) : State :=
  let secretLimit := SECRET_DEFAULT_SIZE - STRIPE_LEN
  { acc := initAcc
    buffer := state.buffer
    bufferedSize := 0
    nbStripesSoFar := 0
    totalLen := 0
    nbStripesPerBlock := secretLimit / SECRET_CONSUME_RATE
    secretLimit := secretLimit
    extSecret := kSecret }

def memcpy (buffer : Bytes) (pos : Nat) (bytes : Bytes) : Bytes :=
  buffer.take pos ++ bytes ++ buffer.drop (pos + bytes.length)

section

variable (kernel : Kernel)

def consumeStripes (acc : Acc) (nbStripesSoFar nbStripesPerBlock : Nat) (input : Bytes)
    (nbStripes : Nat) (secret : Bytes) (secretLimit : Nat) : Acc × Nat :=
  if nbStripesPerBlock - nbStripesSoFar ≤ nbStripes then
    let nbStripesToEndofBlock := nbStripesPerBlock - nbStripesSoFar
    let nbStripesAfterBlock := nbStripes - nbStripesToEndofBlock
    let acc := accumulate kernel nbStripesToEndofBlock acc input
      (secret.drop (nbStripesSoFar * SECRET_CONSUME_RATE))
    let acc := kernel.scrambleAcc acc (secret.drop secretLimit)
    let acc := accumulate kernel nbStripesAfterBlock acc
      (input.drop (nbStripesToEndofBlock * STRIPE_LEN)) secret
    (acc, nbStripesAfterBlock)
  else
    let acc := accumulate kernel nbStripes acc input
      (secret.drop (nbStripesSoFar * SECRET_CONSUME_RATE))
    (acc, nbStripesSoFar + nbStripes)

/-- Filling the buffer up and consuming it, if there is something in it. -/
def completeBuffer (state : State) (input : Bytes) : State × Bytes :=
  if state.bufferedSize ≠ 0 then
    let loadSize := INTERNALBUFFER_SIZE - state.bufferedSize
    let buffer := memcpy state.buffer state.bufferedSize (input.take loadSize)
    let (acc, nbStripesSoFar) := consumeStripes kernel state.acc state.nbStripesSoFar
      state.nbStripesPerBlock buffer INTERNALBUFFER_STRIPES state.extSecret state.secretLimit
    ({ state with
        acc := acc
        buffer := buffer
        nbStripesSoFar := nbStripesSoFar
        bufferedSize := 0 },
      input.drop loadSize)
  else (state, input)

/-- The loop that consumes entire blocks. Its first argument bounds its turns. -/
def consumeBlocks (state : State) : Nat → Acc → Bytes → Nat → Acc × Bytes × Nat
  | 0, acc, input, nbStripes => (acc, input, nbStripes)
  | turns + 1, acc, input, nbStripes =>
      if state.nbStripesPerBlock ≤ nbStripes then
        let acc := accumulate kernel state.nbStripesPerBlock acc input state.extSecret
        let acc := kernel.scrambleAcc acc (state.extSecret.drop state.secretLimit)
        consumeBlocks state turns acc (input.drop (state.nbStripesPerBlock * STRIPE_LEN))
          (nbStripes - state.nbStripesPerBlock)
      else (acc, input, nbStripes)

/-- The stripe in front of `rest`, which the input ends with, goes to the end of
the buffer. -/
def keepPredecessor (buffer input rest : Bytes) : Bytes :=
  memcpy buffer (INTERNALBUFFER_SIZE - STRIPE_LEN)
    ((input.drop (input.length - rest.length - STRIPE_LEN)).take STRIPE_LEN)

/-- More than a block is left: ingest per full block. -/
def ingestBlocks (state : State) (input : Bytes) : State × Bytes :=
  let nbStripes := (input.length - 1) / STRIPE_LEN
  let nbStripesToEnd := state.nbStripesPerBlock - state.nbStripesSoFar
  let acc := accumulate kernel nbStripesToEnd state.acc input
    (state.extSecret.drop (state.nbStripesSoFar * SECRET_CONSUME_RATE))
  let acc := kernel.scrambleAcc acc (state.extSecret.drop state.secretLimit)
  let (acc, rest, nbStripes) := consumeBlocks kernel state nbStripes acc
    (input.drop (nbStripesToEnd * STRIPE_LEN)) (nbStripes - nbStripesToEnd)
  let acc := accumulate kernel nbStripes acc rest state.extSecret
  let rest := rest.drop (nbStripes * STRIPE_LEN)
  ({ state with
      acc := acc
      nbStripesSoFar := nbStripes
      buffer := keepPredecessor state.buffer input rest },
    rest)

/-- The loop that consumes as much as the buffer holds in each turn. Its first
argument bounds the turns after the first one. -/
def consumeBuffers (state : State) : Nat → Acc → Nat → Bytes → Acc × Nat × Bytes
  | 0, acc, nbStripesSoFar, input => (acc, nbStripesSoFar, input)
  | turns + 1, acc, nbStripesSoFar, input =>
      if INTERNALBUFFER_SIZE < input.length then
        let (acc, nbStripesSoFar) := consumeStripes kernel acc nbStripesSoFar
          state.nbStripesPerBlock input INTERNALBUFFER_STRIPES state.extSecret state.secretLimit
        consumeBuffers state turns acc nbStripesSoFar (input.drop INTERNALBUFFER_SIZE)
      else (acc, nbStripesSoFar, input)

/-- At most a block is left: ingest by the size of the buffer. -/
def ingestBuffers (state : State) (input : Bytes) : State × Bytes :=
  if INTERNALBUFFER_SIZE < input.length then
    let (acc, nbStripesSoFar, rest) :=
      consumeBuffers kernel state input.length state.acc state.nbStripesSoFar input
    ({ state with
        acc := acc
        nbStripesSoFar := nbStripesSoFar
        buffer := keepPredecessor state.buffer input rest },
      rest)
  else (state, input)

def update (state : State) (input : Bytes) : State :=
  let state := { state with totalLen := state.totalLen + UInt64.ofNat input.length }
  if state.bufferedSize + input.length ≤ INTERNALBUFFER_SIZE then
    { state with
      buffer := memcpy state.buffer state.bufferedSize input
      bufferedSize := state.bufferedSize + input.length }
  else
    let (state, input) := completeBuffer kernel state input
    let (state, input) :=
      if state.nbStripesPerBlock * STRIPE_LEN < input.length then ingestBlocks kernel state input
      else ingestBuffers kernel state input
    { state with
      buffer := memcpy state.buffer 0 input
      bufferedSize := input.length }

def digestLong (state : State) (secret : Bytes) : Acc :=
  let lastSecret := secret.drop (state.secretLimit - SECRET_LASTACC_START)
  if STRIPE_LEN ≤ state.bufferedSize then
    let nbStripes := (state.bufferedSize - 1) / STRIPE_LEN
    let (acc, _) := consumeStripes kernel state.acc state.nbStripesSoFar state.nbStripesPerBlock
      state.buffer nbStripes secret state.secretLimit
    kernel.accumulate512 acc
      ((state.buffer.drop (state.bufferedSize - STRIPE_LEN)).take STRIPE_LEN) lastSecret
  else
    let catchupSize := STRIPE_LEN - state.bufferedSize
    let lastStripe := state.buffer.drop (INTERNALBUFFER_SIZE - catchupSize) ++
      state.buffer.take state.bufferedSize
    kernel.accumulate512 state.acc lastStripe lastSecret

def digest (state : State) : UInt64 :=
  let secret := state.extSecret
  if MIDSIZE_MAX < state.totalLen.toNat then
    mergeAccs (digestLong kernel state secret) (secret.drop SECRET_MERGEACCS_START)
      (state.totalLen * PRIME64_1)
  else hash64Internal kernel (state.buffer.take state.totalLen.toNat) 0 secret

end

end ChangeSql.Xxh3
