import Ish.Denv.Active
import Ish.Lib.Sha2
import Mathlib.Data.Fintype.Basic
import Mathlib.Data.List.GetD
import Mathlib.Tactic.FinCases

/-!
# SHA-256

The model of `src/denv/sha256.rs`, over lists of bytes and words.
-/

namespace Ish.Denv.Sha256

open Ish.Epsh List

def K : List UInt32 := [
  0x428a2f98, 0x71374491, 0xb5c0fbcf, 0xe9b5dba5, 0x3956c25b, 0x59f111f1, 0x923f82a4, 0xab1c5ed5,
  0xd807aa98, 0x12835b01, 0x243185be, 0x550c7dc3, 0x72be5d74, 0x80deb1fe, 0x9bdc06a7, 0xc19bf174,
  0xe49b69c1, 0xefbe4786, 0x0fc19dc6, 0x240ca1cc, 0x2de92c6f, 0x4a7484aa, 0x5cb0a9dc, 0x76f988da,
  0x983e5152, 0xa831c66d, 0xb00327c8, 0xbf597fc7, 0xc6e00bf3, 0xd5a79147, 0x06ca6351, 0x14292967,
  0x27b70a85, 0x2e1b2138, 0x4d2c6dfc, 0x53380d13, 0x650a7354, 0x766a0abb, 0x81c2c92e, 0x92722c85,
  0xa2bfe8a1, 0xa81a664b, 0xc24b8b70, 0xc76c51a3, 0xd192e819, 0xd6990624, 0xf40e3585, 0x106aa070,
  0x19a4c116, 0x1e376c08, 0x2748774c, 0x34b0bcb5, 0x391c0cb3, 0x4ed8aa4a, 0x5b9cca4f, 0x682e6ff3,
  0x748f82ee, 0x78a5636f, 0x84c87814, 0x8cc70208, 0x90befffa, 0xa4506ceb, 0xbef9a3f7, 0xc67178f2]

/-- The `[u32; 8]` of the source. -/
structure State where
  a : UInt32
  b : UInt32
  c : UInt32
  d : UInt32
  e : UInt32
  f : UInt32
  g : UInt32
  h : UInt32

def State.words (s : State) : List UInt32 := [s.a, s.b, s.c, s.d, s.e, s.f, s.g, s.h]

def rotateRight (x : UInt32) (n : UInt32) : UInt32 := (x >>> n) ||| (x <<< (32 - n))

/-- `u32::from_be_bytes` -/
def fromBeBytes (bytes : List UInt8) : UInt32 :=
  bytes.foldl (fun word byte => (word <<< 8) ||| byte.toUInt32) 0

def toBeBytes (word : UInt32) : List UInt8 :=
  [(word >>> 24).toUInt8, (word >>> 16).toUInt8, (word >>> 8).toUInt8, word.toUInt8]

/-- The whole chunks of `as_chunks`. -/
def chunks (size : Nat) (bytes : List UInt8) : List (List UInt8) :=
  (List.range (bytes.length / size)).map fun i => (bytes.drop (size * i)).take size

/-- The word that the schedule `w` goes on with. -/
def nextWord (w : List UInt32) (i : Nat) : UInt32 :=
  let at' (back : Nat) := w.getD (i - back) 0
  let s0 := rotateRight (at' 15) 7 ^^^ rotateRight (at' 15) 18 ^^^ (at' 15 >>> 3)
  let s1 := rotateRight (at' 2) 17 ^^^ rotateRight (at' 2) 19 ^^^ (at' 2 >>> 10)
  at' 16 + s0 + at' 7 + s1

def schedule (block : List UInt8) : List UInt32 :=
  (List.range' 16 48).foldl (fun w i => w ++ [nextWord w i]) ((chunks 4 block).map fromBeBytes)

def round (s : State) (kw : UInt32 × UInt32) : State :=
  let s1 := rotateRight s.e 6 ^^^ rotateRight s.e 11 ^^^ rotateRight s.e 25
  let ch := (s.e &&& s.f) ^^^ (~~~s.e &&& s.g)
  let t1 := s.h + s1 + ch + kw.1 + kw.2
  let s0 := rotateRight s.a 2 ^^^ rotateRight s.a 13 ^^^ rotateRight s.a 22
  let maj := (s.a &&& s.b) ^^^ (s.a &&& s.c) ^^^ (s.b &&& s.c)
  let t2 := s0 + maj
  { a := t1 + t2, b := s.a, c := s.b, d := s.c, e := s.d + t1, f := s.e, g := s.f, h := s.g }

def compress (state : State) (block : List UInt8) : State :=
  let s := (K.zip (schedule block)).foldl round state
  { a := state.a + s.a, b := state.b + s.b, c := state.c + s.c, d := state.d + s.d
    e := state.e + s.e, f := state.f + s.f, g := state.g + s.g, h := state.h + s.h }

def initial : State where
  a := 0x6a09e667
  b := 0xbb67ae85
  c := 0x3c6ef372
  d := 0xa54ff53a
  e := 0x510e527f
  f := 0x9b05688c
  g := 0x1f83d9ab
  h := 0x5be0cd19

/-- What is left of the data after its whole blocks, padded to blocks. -/
def tail (data : List UInt8) : List UInt8 :=
  let rest := data.drop (64 * (data.length / 64))
  let tail_len := if rest.length < 56 then 64 else 128
  let bit_len := UInt64.ofNat data.length * 8
  rest ++ [(0x80 : UInt8)] ++ List.replicate (tail_len - 8 - (rest.length + 1)) (0 : UInt8) ++
    toBeBytes (bit_len >>> 32).toUInt32 ++ toBeBytes bit_len.toUInt32

/-- Lowercase hex SHA-256 digest of `data`. -/
def hexDigest (data : List UInt8) : Text :=
  let state := (chunks 64 data).foldl compress initial
  let state := (chunks 64 (tail data)).foldl compress state
  writeHex (state.words.flatMap toBeBytes)

theorem length_writeHex (bytes : List UInt8) : (writeHex bytes).length = 2 * bytes.length := by
  induction bytes with
  | nil => rfl
  | cons byte bytes ih =>
    rw [writeHex, flatMap_cons, length_append, ← writeHex, ih, hexByte,
      length_cons]
    simp
    omega

@[simp] theorem length_hexDigest (data : List UInt8) : (hexDigest data).length = 64 := by
  rw [hexDigest, length_writeHex]
  simp [State.words, toBeBytes]

theorem length_encode_hexDigest (data : List UInt8) :
    (ShellBytes.ofText (hexDigest data)).length = 64 := by
  rw [ShellBytes.ofText, hexDigest, length_encode_writeHex]
  simp [State.words, toBeBytes]

/-- The digest of the empty text, as the standard gives it. -/
example : hexDigest [] =
    "e3b0c44298fc1c149afbf4c8996fb92427ae41e4649b934ca495991b7852b855".toList := by
  decide +kernel

/-! ## Rounds -/

open Ish.Lib

def State.hash (s : State) : Sha2.Hash :=
  ![s.a.toBitVec, s.b.toBitVec, s.c.toBitVec, s.d.toBitVec, s.e.toBitVec, s.f.toBitVec,
    s.g.toBitVec, s.h.toBitVec]

theorem hash_round (s : State) (k w : UInt32) :
    (round s (k, w)).hash = Sha2.round k.toBitVec w.toBitVec s.hash := rfl

/-- The constants are those of the standard. -/
theorem K_eq : ∀ t < 64, (K.getD t 0).toBitVec = Sha2.K t := by
  have hroots : ∀ t < 64, ∃ whole < 8,
      (2 ^ 32 * whole + (K.getD t 0).toNat) ^ 3 ≤ Sha2.primes.getD t 0 * 2 ^ (32 * 3) ∧
      Sha2.primes.getD t 0 * 2 ^ (32 * 3) < (2 ^ 32 * whole + (K.getD t 0).toNat + 1) ^ 3 := by
    rw [Sha2.primes_eq]
    decide +kernel
  intro t ht
  obtain ⟨whole, -, hle, hlt⟩ := hroots t ht
  exact (Sha2.fraction_eq (by decide) hle hlt).symm

theorem initial_eq : initial.hash = Sha2.initial := by
  have hroots : ∀ i : Fin 8, ∃ whole < 8,
      (2 ^ 32 * whole + (initial.hash i).toNat) ^ 2 ≤ Sha2.primes.getD i 0 * 2 ^ (32 * 2) ∧
      Sha2.primes.getD i 0 * 2 ^ (32 * 2) < (2 ^ 32 * whole + (initial.hash i).toNat + 1) ^ 2 := by
    rw [Sha2.primes_eq]
    decide
  funext i
  obtain ⟨whole, -, hle, hlt⟩ := hroots i
  exact (Sha2.fraction_eq (by decide) hle hlt).symm

/-! ## The message schedule -/

variable {M : Nat → BitVec 32}

theorem nextWord_eq (hlength : 16 ≤ w.length)
    (h : ∀ t < w.length, (w.getD t 0).toBitVec = Sha2.schedule M t) :
    (nextWord w w.length).toBitVec = Sha2.schedule M w.length := by
  have hword (back : Nat) (hback : 0 < back) : (w.getD (w.length - back) 0).toBitVec =
      Sha2.schedule M (w.length - back) := h _ (by omega)
  rw [Sha2.schedule, if_neg (by omega), ← hword 2 (by decide), ← hword 7 (by decide),
    ← hword 15 (by decide), ← hword 16 (by decide)]
  unfold nextWord
  simp only [UInt32.toBitVec_add]
  rw [BitVec.add_assoc, BitVec.add_comm, BitVec.add_assoc]
  ac_rfl

theorem schedule_go (n : Nat) (hlength : 16 ≤ w.length)
    (h : ∀ t < w.length, (w.getD t 0).toBitVec = Sha2.schedule M t) :
    let v := (List.range' w.length n).foldl (fun w i => w ++ [nextWord w i]) w
    v.length = w.length + n ∧ ∀ t < w.length + n, (v.getD t 0).toBitVec = Sha2.schedule M t := by
  induction n generalizing w with
  | zero => exact ⟨rfl, h⟩
  | succ n ih =>
    have hnext : ∀ t < (w ++ [nextWord w w.length]).length,
        ((w ++ [nextWord w w.length]).getD t 0).toBitVec = Sha2.schedule M t := by
      intro t ht
      rw [length_append, length_singleton] at ht
      rcases Nat.lt_succ_iff_lt_or_eq.mp ht with hlt | rfl
      · rw [getD_append _ _ _ _ hlt, h t hlt]
      · rw [getD_append_right _ _ _ _ le_rfl, Nat.sub_self]
        exact nextWord_eq hlength h
    have := ih (by rw [length_append]; omega) hnext
    rw [length_append, length_singleton] at this
    rw [range'_succ, foldl_cons, ← Nat.add_assoc, Nat.add_right_comm]
    exact this

theorem schedule_eq (hlength : block.length = 64)
    (hM : ∀ t < 16, M t = (fromBeBytes ((block.drop (4 * t)).take 4)).toBitVec) :
    (schedule block).length = 64 ∧
      ∀ t < 64, ((schedule block).getD t 0).toBitVec = Sha2.schedule M t := by
  have hwords : ((chunks 4 block).map fromBeBytes).length = 16 := by
    rw [length_map, chunks, length_map, length_range, hlength]
  have hfirst : ∀ t < ((chunks 4 block).map fromBeBytes).length,
      (((chunks 4 block).map fromBeBytes).getD t 0).toBitVec = Sha2.schedule M t := by
    intro t ht
    have hlt : t < 16 := hwords ▸ ht
    rw [Sha2.schedule, if_pos hlt, hM t hlt, getD_eq_getElem _ _ ht]
    simp only [chunks, getElem_map, getElem_range]
  have := schedule_go 48 (by rw [hwords]) hfirst
  rwa [hwords] at this

theorem hash_compress (state : State) (hlength : block.length = 64)
    (hM : ∀ t < 16, M t = (fromBeBytes ((block.drop (4 * t)).take 4)).toBitVec) :
    (compress state block).hash = Sha2.compress M state.hash := by
  obtain ⟨hsize, hwords⟩ := schedule_eq hlength hM
  have hzip : K.zip (schedule block) =
      (List.range 64).map fun t => (K.getD t 0, (schedule block).getD t 0) := by
    refine ext_getElem (by rw [length_zip, hsize]; rfl) fun t ht ht' => ?_
    have hlt : t < 64 := by simpa using ht'
    rw [getElem_zip, getElem_map, getElem_range, getD_eq_getElem,
      getD_eq_getElem]
  have hrounds : ((K.zip (schedule block)).foldl round state).hash =
      (List.range 64).foldl (fun v t => Sha2.round (Sha2.K t) (Sha2.schedule M t) v) state.hash := by
    have hfold := @foldl_hom _ _ _ State.hash
      (fun s t => round s (K.getD t 0, (schedule block).getD t 0))
      (fun v t => Sha2.round (K.getD t 0).toBitVec ((schedule block).getD t 0).toBitVec v)
      (List.range 64) state fun s t => (hash_round s _ _).symm
    rw [hzip, foldl_map, ← hfold]
    refine foldl_ext _ _ _ fun v t ht => ?_
    have hlt := mem_range.mp ht
    rw [K_eq t hlt, hwords t hlt]
  rw [Sha2.compress, ← hrounds]
  funext i
  fin_cases i <;> rfl

/-! ## Blocks -/

theorem toNat_fromBeBytes (bytes : List UInt8) :
    (fromBeBytes bytes).toNat = Sha2.number (Sha2.toBits bytes) % 2 ^ 32 := by
  induction bytes using List.reverseRecOn with
  | nil => rfl
  | append_singleton bytes byte ih =>
    have hshift : (fromBeBytes bytes <<< 8).toNat = 2 ^ 8 * ((fromBeBytes bytes).toNat % 2 ^ 24) := by
      rw [UInt32.toNat_shiftLeft, Nat.shiftLeft_eq, Nat.mul_comm, ← Nat.mul_mod_mul_left]
      rfl
    rw [fromBeBytes, foldl_append, ← fromBeBytes, foldl_cons, foldl_nil,
      UInt32.toNat_or, hshift, UInt8.toNat_toUInt32, ← Nat.two_pow_add_eq_or_of_lt byte.toNat_lt, ih,
      Sha2.number_toBits_concat]
    have := byte.toNat_lt
    omega

theorem word_eq (ht : t < 16) :
    Sha2.word (Sha2.toBits bytes) i t =
      (fromBeBytes ((((bytes.drop (64 * i)).take 64).drop (4 * t)).take 4)).toBitVec := by
  have hword : (((bytes.drop (64 * i)).take 64).drop (4 * t)).take 4 =
      (bytes.drop (64 * i + 4 * t)).take 4 := by
    rw [drop_take, take_take, drop_drop, Nat.min_eq_left (by omega)]
  apply BitVec.eq_of_toNat_eq
  rw [Sha2.word_toBits, hword, BitVec.toNat_ofNat, UInt32.toNat_toBitVec, toNat_fromBeBytes]

/-- The digest of whole blocks is folded over them. -/
theorem hash_chunks (hlength : bytes.length = 64 * n) :
    ((chunks 64 bytes).foldl compress initial).hash =
      (List.range n).foldl (fun H i => Sha2.compress (Sha2.word (Sha2.toBits bytes) i) H)
        Sha2.initial := by
  have hcount : bytes.length / 64 = n := by omega
  rw [chunks, hcount, foldl_map, ← initial_eq]
  generalize initial = state
  have hstep : ∀ k ≤ n, ∀ state : State,
      ((List.range k).foldl (fun s i => compress s ((bytes.drop (64 * i)).take 64)) state).hash =
        (List.range k).foldl (fun H i => Sha2.compress (Sha2.word (Sha2.toBits bytes) i) H)
          state.hash := by
    intro k hk state
    induction k with
    | zero => rfl
    | succ k ih =>
      have hblock : ((bytes.drop (64 * k)).take 64).length = 64 := by
        rw [length_take, length_drop]
        omega
      rw [range_succ, foldl_append, foldl_append, ← ih (by omega)]
      exact hash_compress _ hblock fun t ht => word_eq ht
  exact hstep n le_rfl state

theorem chunks_append (h : a.length = 64 * n) :
    chunks 64 (a ++ b) = chunks 64 a ++ chunks 64 b := by
  have hcount : (a ++ b).length / 64 = a.length / 64 + b.length / 64 := by
    rw [length_append]
    omega
  unfold chunks
  rw [hcount, range_add, map_append, map_map]
  congr 1
  · refine map_congr_left fun i hi => ?_
    have hlt := mem_range.mp hi
    rw [drop_append_of_le_length (by omega), take_append_of_le_length]
    rw [length_drop]
    omega
  · refine map_congr_left fun i _ => ?_
    have hindex : 64 * (a.length / 64 + i) = a.length + 64 * i := by omega
    rw [Function.comp, hindex, drop_append, drop_eq_nil_of_le (by omega)]
    simp

theorem chunks_take (data : List UInt8) :
    chunks 64 (data.take (64 * (data.length / 64))) = chunks 64 data := by
  have hlength : (data.take (64 * (data.length / 64))).length = 64 * (data.length / 64) :=
    length_take_of_le (by omega)
  unfold chunks
  rw [hlength, Nat.mul_div_cancel_left _ (by decide)]
  refine map_congr_left fun i hi => ?_
  have hlt := mem_range.mp hi
  rw [drop_take, take_take, Nat.min_eq_left (by omega)]

/-! ## Padding -/

theorem bitsOf_word (w : UInt32) : Sha2.bitsOf 32 w.toNat = Sha2.toBits (toBeBytes w) := by
  have hbyte (k : UInt32) (hk : k.toNat < 32) :
      Sha2.bitsOf 8 (w >>> k).toUInt8.toNat = Sha2.bitsOf 8 (w.toNat / 2 ^ k.toNat) := by
    rw [UInt32.toNat_toUInt8, UInt32.toNat_shiftRight, Nat.shiftRight_eq_div_pow,
      Nat.mod_eq_of_lt hk, Sha2.bitsOf_mod]
  have hlast : Sha2.bitsOf 8 w.toUInt8.toNat = Sha2.bitsOf 8 w.toNat := by
    rw [UInt32.toNat_toUInt8, Sha2.bitsOf_mod]
  rw [Sha2.bitsOf_add 8 24, Sha2.bitsOf_add 8 16, Sha2.bitsOf_add 8 8]
  simp only [toBeBytes, Sha2.toBits_cons]
  rw [hbyte 24 (by decide), hbyte 16 (by decide), hbyte 8 (by decide), hlast]
  simp [Sha2.toBits]

theorem toBits_length {n : Nat} (hn : n < 2 ^ 61) :
    Sha2.toBits (toBeBytes ((UInt64.ofNat n * 8) >>> 32).toUInt32 ++
      toBeBytes (UInt64.ofNat n * 8).toUInt32) = Sha2.bitsOf 64 (8 * n) := by
  have hbits : (UInt64.ofNat n * 8).toNat = 8 * n := by
    have height : (8 : UInt64).toNat = 8 := rfl
    rw [UInt64.toNat_mul, UInt64.toNat_ofNat', height]
    omega
  have hhigh : ((UInt64.ofNat n * 8) >>> 32).toUInt32.toNat = 8 * n / 2 ^ 32 % 2 ^ 32 := by
    rw [UInt64.toNat_toUInt32, UInt64.toNat_shiftRight, Nat.shiftRight_eq_div_pow, hbits]
    rfl
  have hlow : (UInt64.ofNat n * 8).toUInt32.toNat = 8 * n % 2 ^ 32 := by
    rw [UInt64.toNat_toUInt32, hbits]
  rw [Sha2.toBits_append, ← bitsOf_word, ← bitsOf_word, hhigh, hlow, Sha2.bitsOf_mod, Sha2.bitsOf_mod,
    ← Sha2.bitsOf_add]

theorem toBits_zeros (n : Nat) :
    Sha2.toBits (List.replicate n (0 : UInt8)) = List.replicate (8 * n) false := by
  induction n with
  | zero => rfl
  | succ n ih =>
    rw [replicate_succ, Sha2.toBits_cons, ih, Nat.mul_succ, Nat.add_comm, replicate_add]
    rfl

/-- The tail holds what is left of the data, and the padding behind it. -/
theorem padded_eq (h : data.length < 2 ^ 61) :
    Sha2.padded (Sha2.toBits data) =
      Sha2.toBits (data.take (64 * (data.length / 64)) ++ tail data) := by
  have hone : Sha2.toBits [(0x80 : UInt8)] = true :: List.replicate 7 false := by decide
  have hrest : (data.drop (64 * (data.length / 64))).length = data.length % 64 := by
    rw [length_drop]
    omega
  have hzeros : (959 - 8 * data.length % 512) % 512 = 7 + 8 *
      ((if data.length % 64 < 56 then 64 else 128) - 8 - (data.length % 64 + 1)) := by
    split <;> omega
  have hwhole : data.take (64 * (data.length / 64)) ++ tail data =
      data ++ [(0x80 : UInt8)] ++ List.replicate
        ((if data.length % 64 < 56 then 64 else 128) - 8 - (data.length % 64 + 1)) (0 : UInt8) ++
      (toBeBytes ((UInt64.ofNat data.length * 8) >>> 32).toUInt32 ++
        toBeBytes (UInt64.ofNat data.length * 8).toUInt32) := by
    rw [tail]
    simp only [hrest, ← append_assoc, take_append_drop]
  rw [hwhole, Sha2.toBits_append, toBits_length h, Sha2.toBits_append, Sha2.toBits_append, hone,
    toBits_zeros, Sha2.padded, Sha2.length_toBits, hzeros, replicate_add]
  simp only [append_assoc, cons_append]

theorem length_tail (data : List UInt8) :
    (data.take (64 * (data.length / 64)) ++ tail data).length =
      64 * (data.length / 64 + (tail data).length / 64) := by
  have hrest : (data.drop (64 * (data.length / 64))).length = data.length % 64 := by
    rw [length_drop]
    omega
  have htail : (tail data).length = if data.length % 64 < 56 then 64 else 128 := by
    simp only [tail, hrest, length_append, length_replicate,
      toBeBytes, length_cons, length_nil]
    split <;> omega
  rw [length_append, length_take_of_le (by omega), htail]
  split <;> omega

/-! ## The digest -/

theorem hex_toBits (bytes : List UInt8) : Sha2.hex (Sha2.toBits bytes) = writeHex bytes := by
  induction bytes with
  | nil => rfl
  | cons byte bytes ih =>
    have hhigh : byte.toNat / 2 ^ 4 % 16 = byte.toNat / 16 := by
      have := byte.toNat_lt
      omega
    rw [Sha2.toBits_cons, Sha2.bitsOf_add 4 4, append_assoc, Sha2.hex_bitsOf, Sha2.hex_bitsOf, hhigh,
      ih]
    rfl

/-- **The digest is that of the standard.** -/
theorem hexDigest_eq {data : List UInt8} (h : data.length < 2 ^ 61) :
    hexDigest data = Sha2.hex (Sha2.digest (Sha2.toBits data)) := by
  have hwords (s : State) : (List.ofFn s.hash).flatMap (fun w => Sha2.bitsOf 32 w.toNat) =
      Sha2.toBits (s.words.flatMap toBeBytes) := by
    have : List.ofFn s.hash = s.words.map UInt32.toBitVec := by
      simp [State.hash, State.words, ofFn_succ]
    rw [this]
    generalize s.words = words
    induction words with
    | nil => rfl
    | cons w words ih =>
      rw [map_cons, flatMap_cons, flatMap_cons, ih, Sha2.toBits_append, ← bitsOf_word]
      rfl
  have hlength := length_tail data
  have hcount : (Sha2.toBits (data.take (64 * (data.length / 64)) ++ tail data)).length / 512 =
      data.length / 64 + (tail data).length / 64 := by
    rw [Sha2.length_toBits, hlength]
    omega
  have hfold : ((chunks 64 (data.take (64 * (data.length / 64)) ++ tail data)).foldl compress
      initial) = (chunks 64 (tail data)).foldl compress ((chunks 64 data).foldl compress initial) := by
    rw [chunks_append (length_take_of_le (by omega)), chunks_take, foldl_append]
  rw [Sha2.digest, padded_eq h]
  simp only [hcount]
  rw [← hash_chunks hlength, hfold, hwords, hex_toBits]
  rfl

theorem hexDigest_abc :
    hexDigest [0x61, 0x62, 0x63] = Sha2.hex (Sha2.digest (Sha2.toBits [0x61, 0x62, 0x63])) :=
  hexDigest_eq (by decide)

end Ish.Denv.Sha256
