import Wiselib.Crypto.Octets

/-!
# SHA-1

The hash of `crypto/sha1.h`, and the key derivation and the message
authentication that are made of it.

## Strategy

`SHA1Update` and `SHA1Digest` fill the message block from its beginning and
process it when it is full, so that a block is the octets below its index; what
an array of the stack held before is never read.

The flags of the context say whether a message was too long or continued after
its digest.  As long as a message has less than `2 ^ 29` octets neither happens
(`fresh_update`), and the digest has twenty octets that only depend on it
(`length_digest`, `hmacSha1_congr`).
-/

namespace Wiselib.Crypto.Sha1

open Digits

/-- A word of 32 bits. -/
abbrev Word := BitVec 32

/-- `SHA1CircularShift`. -/
def circularShift (bits : ℕ) (word : Word) : Word :=
  word <<< bits ||| word >>> (32 - bits)

/-- The five words of a hash. -/
structure Registers where
  wA : Word
  wB : Word
  wC : Word
  wD : Word
  wE : Word
deriving DecidableEq

/-- `SHA1Context`, with the part of its message block that is filled. -/
structure Sha1Context where
  intermediateHash : Registers
  lengthLow : Word
  lengthHigh : Word
  messageBlock : List Octet
  computed : Bool
  corrupted : ℕ

/-- `SHA1Reset`. -/
def reset : Sha1Context where
  intermediateHash := ⟨0x67452301, 0xEFCDAB89, 0x98BADCFE, 0x10325476, 0xC3D2E1F0⟩
  lengthLow := 0
  lengthHigh := 0
  messageBlock := []
  computed := false
  corrupted := 0

/-! ## Blocks -/

/-- The constants of the rounds. -/
def roundConstants : List Word :=
  [0x5A827999, 0x6ED9EBA1, 0x8F1BBCDC, 0xCA62C1D6]

/-- The words of a block. -/
def blockWords (block : List Octet) : List Word :=
  (List.range 16).map fun t =>
    (block.getD (t * 4) 0).setWidth 32 <<< 24 |||
      (block.getD (t * 4 + 1) 0).setWidth 32 <<< 16 |||
      (block.getD (t * 4 + 2) 0).setWidth 32 <<< 8 |||
      (block.getD (t * 4 + 3) 0).setWidth 32

/-- What the round `t` makes of three words. -/
def roundFunction (t : ℕ) (wB wC wD : Word) : Word :=
  if t < 20 then wB &&& wC ||| ~~~wB &&& wD
  else if t < 40 then wB ^^^ wC ^^^ wD
  else if t < 60 then wB &&& wC ||| wB &&& wD ||| wC &&& wD
  else wB ^^^ wC ^^^ wD

/-- The round `t`, on an array of sixteen words that is used in turn. -/
def round (r : Registers × List Word) (t : ℕ) : Registers × List Word :=
  let s := t % 16
  let W := if 16 ≤ t then
      r.2.set s (circularShift 1 (r.2.getD ((s + 13) % 16) 0 ^^^ r.2.getD ((s + 8) % 16) 0 ^^^
        r.2.getD ((s + 2) % 16) 0 ^^^ r.2.getD s 0))
    else r.2
  let temp := circularShift 5 r.1.wA + roundFunction t r.1.wB r.1.wC r.1.wD + r.1.wE +
    W.getD s 0 + roundConstants.getD (t / 20) 0
  (⟨temp, r.1.wA, circularShift 30 r.1.wB, r.1.wC, r.1.wD⟩, W)

/-- `SHA1ProcessMessageBlock`. -/
def processMessageBlock (context : Sha1Context) : Sha1Context :=
  let h := context.intermediateHash
  let r := ((List.range 80).foldl round (h, blockWords context.messageBlock)).1
  { context with
    intermediateHash :=
      ⟨h.wA + r.wA, h.wB + r.wB, h.wC + r.wC, h.wD + r.wD, h.wE + r.wE⟩
    messageBlock := [] }

/-- The octets of a word from the highest on. -/
def wordOctets (word : Word) : List Octet :=
  [(word >>> 24).setWidth 8, (word >>> 16).setWidth 8, (word >>> 8).setWidth 8, word.setWidth 8]

/-- `SHA1PadMessage`. -/
def padMessage (context : Sha1Context) : Sha1Context :=
  let block := context.messageBlock ++ [0x80]
  let context :=
    if 55 < context.messageBlock.length then
      let context := processMessageBlock
        { context with messageBlock := block ++ List.replicate (64 - block.length) 0 }
      { context with messageBlock := List.replicate 56 0 }
    else { context with messageBlock := block ++ List.replicate (56 - block.length) 0 }
  processMessageBlock
    { context with
      messageBlock := context.messageBlock ++ wordOctets context.lengthHigh ++
        wordOctets context.lengthLow }

/-! ## Messages -/

/-- The body of the loop of `SHA1Update`. -/
def updateOctet (context : Sha1Context) (octet : Octet) : Sha1Context :=
  let context := { context with
    messageBlock := context.messageBlock ++ [octet]
    lengthLow := context.lengthLow + 8 }
  let context :=
    if context.lengthLow = 0 then
      { context with
        lengthHigh := context.lengthHigh + 1
        corrupted := if context.lengthHigh + 1 = 0 then 1 else context.corrupted }
    else context
  if context.messageBlock.length = 64 then processMessageBlock context else context

/-- The loop of `SHA1Update`. -/
def updateLoop (context : Sha1Context) : List Octet → Sha1Context
  | [] => context
  | octet :: message =>
      if context.corrupted ≠ 0 then context else updateLoop (updateOctet context octet) message

/-- `SHA1Update`. -/
def update (context : Sha1Context) (message : List Octet) : Sha1Context :=
  if message = [] then context
  else if context.computed then { context with corrupted := 3 }
  else updateLoop context message

/-- `SHA1Digest` into an array of twenty octets. -/
def digest (context : Sha1Context) (messageDigest : List Octet) : Sha1Context × List Octet :=
  if context.corrupted ≠ 0 then (context, messageDigest)
  else
    let context :=
      if context.computed then context
      else { padMessage context with lengthLow := 0, lengthHigh := 0, computed := true }
    let h := context.intermediateHash
    (context, wordOctets h.wA ++ wordOctets h.wB ++ wordOctets h.wC ++ wordOctets h.wD ++
      wordOctets h.wE)

/-! ## Keys and tags -/

/-- The loop of `KDF` for `len` more octets, on the octets of the secret and three zeros. -/
def kdfLoop (sha1sum z : List Octet) (len i : ℕ) : List Octet :=
  if 0 < len then
    let sha1sum := (digest (update reset (z ++ [BitVec.ofNat 8 i])) sha1sum).2
    sha1sum.take len ++ kdfLoop sha1sum z (len - 20) (i + 1)
  else []
termination_by len

/-- `KDF`: `len` octets from the first `keyLen` ones of the secret. -/
def kdf (keyLen : ℕ) (sha1sum : List Octet) (len : ℕ) (z : List Octet) : List Octet :=
  kdfLoop sha1sum (z.take keyLen ++ [0, 0, 0]) len 1

/-- A key in an array of 64 octets, with a pattern added. -/
def keyPad (key : List Octet) (pattern : Octet) : List Octet :=
  (key.takeD 64 0).map (· ^^^ pattern)

/-- `hmac_sha1` into an array of twenty octets. -/
def hmacSha1 (text key messageDigest : List Octet) : List Octet :=
  let inner := update (update reset (keyPad key 0x36)) text
  let messageDigest := (digest inner messageDigest).2
  let outer := update (update reset (keyPad key 0x5c)) messageDigest
  (digest outer messageDigest).2

/-! ## Contexts without an error -/

/-- A context after `n` octets, without an error. -/
structure Fresh (context : Sha1Context) (n : ℕ) : Prop where
  computed : context.computed = false
  corrupted : context.corrupted = 0
  lengthLow : context.lengthLow.toNat = 8 * n

theorem fresh_reset : Fresh reset 0 :=
  ⟨rfl, rfl, rfl⟩

section Contexts

variable {context : Sha1Context} {n : ℕ} {message : List Octet}

theorem fresh_processMessageBlock (h : Fresh context n) :
    Fresh (processMessageBlock context) n := by
  unfold processMessageBlock
  exact ⟨h.computed, h.corrupted, h.lengthLow⟩

/-- **One octet.** -/
theorem fresh_updateOctet (h : Fresh context n) (hn : 8 * (n + 1) < 2 ^ 32) (octet : Octet) :
    Fresh (updateOctet context octet) (n + 1) := by
  have hlow : (context.lengthLow + 8).toNat = 8 * (n + 1) := by
    rw [BitVec.toNat_add, h.lengthLow]
    exact Nat.mod_eq_of_lt hn
  have hne : context.lengthLow + 8 ≠ 0 := by
    intro hzero
    rw [hzero] at hlow
    simp at hlow
  have hnext : Fresh { context with
      messageBlock := context.messageBlock ++ [octet]
      lengthLow := context.lengthLow + 8 } (n + 1) := ⟨h.computed, h.corrupted, hlow⟩
  unfold updateOctet
  dsimp only
  rw [if_neg hne]
  split
  · exact fresh_processMessageBlock hnext
  · exact hnext

/-- **Messages** that are not too long leave no error. -/
theorem fresh_update (h : Fresh context n) (hn : 8 * (n + message.length) < 2 ^ 32) :
    Fresh (update context message) (n + message.length) := by
  have hloop : ∀ (message : List Octet) (context : Sha1Context) (n : ℕ), Fresh context n →
      8 * (n + message.length) < 2 ^ 32 →
      Fresh (updateLoop context message) (n + message.length) := by
    intro message
    induction message with
    | nil => exact fun _ _ h _ => h
    | cons octet message ih =>
        intro context n h hn
        rw [List.length_cons] at hn ⊢
        have hlength : n + (message.length + 1) = n + 1 + message.length := by omega
        rw [updateLoop, if_neg (not_not.2 h.corrupted), hlength]
        exact ih _ _ (fresh_updateOctet h (by omega) octet) (by omega)
  unfold update
  split_ifs with hempty hcomputed
  · rw [hempty]
    exact h
  · exact absurd hcomputed (by simp [h.computed])
  · exact hloop _ _ _ h hn

theorem length_digest (h : Fresh context n) (messageDigest : List Octet) :
    (digest context messageDigest).2.length = 20 := by
  rw [digest, if_neg (not_not.2 h.corrupted)]
  rfl

theorem digest_congr (h : Fresh context n) (old old' : List Octet) :
    digest context old = digest context old' := by
  rw [digest, digest, if_neg (not_not.2 h.corrupted), if_neg (not_not.2 h.corrupted)]

end Contexts

/-! ## The results -/

section Results

variable {keyLen len : ℕ} {text key z : List Octet}

@[simp] theorem length_keyPad (key : List Octet) (pattern : Octet) :
    (keyPad key pattern).length = 64 := by
  rw [keyPad, List.length_map, List.takeD_length]

theorem fresh_keyPad (key : List Octet) (pattern : Octet) :
    Fresh (update reset (keyPad key pattern)) 64 := by
  have hfresh := fresh_update fresh_reset
    (show 8 * (0 + (keyPad key pattern).length) < 2 ^ 32 by rw [length_keyPad]; norm_num)
  rwa [length_keyPad] at hfresh

theorem fresh_outer (htext : 8 * (64 + text.length) < 2 ^ 32) (old : List Octet) :
    Fresh (update (update reset (keyPad key 0x5c))
      (digest (update (update reset (keyPad key 0x36)) text) old).2) 84 := by
  have hlength := length_digest (fresh_update (fresh_keyPad key 0x36) htext) old
  have hfresh := fresh_update (fresh_keyPad key 0x5c)
    (show 8 * (64 + (digest (update (update reset (keyPad key 0x36)) text) old).2.length) <
      2 ^ 32 by rw [hlength]; norm_num)
  rwa [hlength] at hfresh

theorem hmacSha1_congr (htext : 8 * (64 + text.length) < 2 ^ 32) (old old' : List Octet) :
    hmacSha1 text key old = hmacSha1 text key old' := by
  have hinner := digest_congr (fresh_update (fresh_keyPad key 0x36) htext) old old'
  rw [hmacSha1, hmacSha1, hinner]

theorem length_hmacSha1 (htext : 8 * (64 + text.length) < 2 ^ 32) (old : List Octet) :
    (hmacSha1 text key old).length = 20 :=
  length_digest (fresh_outer htext old) _

theorem kdf_congr (hz : 8 * (keyLen + 4) < 2 ^ 32) (old old' : List Octet) :
    kdf keyLen old len z = kdf keyLen old' len z := by
  have htake := List.length_take_le keyLen z
  have hfresh := fresh_update fresh_reset
    (show 8 * (0 + (z.take keyLen ++ [0, 0, 0] ++ [BitVec.ofNat 8 1]).length) < 2 ^ 32 by
      simp only [List.length_append, List.length_cons, List.length_nil]
      omega)
  unfold kdf
  rw [kdfLoop, kdfLoop, digest_congr hfresh old old']

end Results

/-- The digest of the three octets of `abc`. -/
example : (digest (update reset [0x61, 0x62, 0x63]) []).2 =
    [0xA9, 0x99, 0x3E, 0x36, 0x47, 0x06, 0x81, 0x6A, 0xBA, 0x3E, 0x25, 0x71, 0x78, 0x50, 0xC2,
      0x6C, 0x9C, 0xD0, 0xD8, 0x9D] := by
  decide +kernel

end Wiselib.Crypto.Sha1
