import Ish.Lib.EState
import Ish.Lib.LittleEndian

/-!
# Decoders

Computations that take bytes from the front of what is left, and the relation
between a decoder and the bytes it was written for: whatever follows, it takes
exactly these and yields the value. The relation composes as decoders do.
-/

namespace Ish.Lib

open List

abbrev Decoder (E α : Type) := EStateM E (List UInt8) α

namespace Decoder

variable {E α β : Type}

/-- The next `count` bytes. -/
def take (short : E) (count : Nat) : Decoder E (List UInt8) := fun bytes =>
  if count ≤ bytes.length then .ok (bytes.take count) (bytes.drop count) else .error short bytes

/-- `d` on bytes of its own. -/
def inside (slot : List UInt8) (d : Decoder E α) : Decoder E α := fun bytes =>
  match d slot with
  | .ok a _ => .ok a bytes
  | .error e _ => .error e bytes

def many (d : Decoder E α) : Nat → Decoder E (List α)
  | 0 => pure []
  | count + 1 => do
    let a ← d
    let rest ← many d count
    pure (a :: rest)

/-- `d` takes exactly `bytes`, whatever follows them, and yields `a`. -/
def Reads (d : Decoder E α) (bytes : List UInt8) (a : α) : Prop :=
  ∀ rest, d (bytes ++ rest) = .ok a rest

namespace Reads

variable {d : Decoder E α} {bytes bytes' : List UInt8} {a : α} {b : β}

theorem pure (a : α) : Reads (Pure.pure a : Decoder E α) [] a := fun _ => rfl

theorem bind (hd : Reads d bytes a) (hf : Reads (f a) bytes' b) :
    Reads (d >>= f) (bytes ++ bytes') b := by
  intro rest
  rw [append_assoc]
  exact (EState.bind_ok (hd _)).trans (hf rest)

theorem bindLast (hd : Reads d bytes a) (hf : Reads (f a) [] b) :
    Reads (d >>= f) bytes b := by
  have h := hd.bind hf
  rwa [append_nil] at h

/-- A step that takes nothing. -/
theorem skip (hd : Reads d [] a) (hf : Reads (f a) bytes b) :
    Reads (d >>= f) bytes b :=
  hd.bind hf

theorem take (short : E) {count} (h : bytes.length = count) :
    Reads (Decoder.take short count) bytes bytes := by
  intro rest
  subst h
  have hle : bytes.length ≤ (bytes ++ rest).length := by
    rw [length_append]
    exact Nat.le_add_right _ _
  rw [Decoder.take, if_pos hle, take_left, drop_left]

theorem ensure (error : E) (h : p = true) : Reads (EState.ensure p error) [] () :=
  fun _ => EState.ensure_run error h

theorem inside (h : d slot = .ok a left) :
    Reads (Decoder.inside slot d) [] a := by
  intro rest
  rw [Decoder.inside, h]
  rfl

theorem many
    (h : ∀ a ∈ values, Reads d (encoded a) a) :
    Reads (Decoder.many d values.length) (values.flatMap encoded) values := by
  induction values with
  | nil => exact pure []
  | cons a rest ih =>
    have hrest := ih fun b hb => h b (mem_cons_of_mem a hb)
    exact (h a mem_cons_self).bind (hrest.bindLast (pure _))

theorem run (h : Reads d bytes a) : d bytes = .ok a [] := by
  have hnil := h []
  rwa [append_nil] at hnil

end Reads

/-! ## The way back -/

/-- What `d` accepts it took from the front as `put a`, and `p` holds of `a`. -/
def Spells (d : Decoder E α) (put : α → List UInt8) (p : α → Prop) : Prop :=
  ∀ bytes a rest, d bytes = .ok a rest → bytes = put a ++ rest ∧ p a

section Steps

variable {d : Decoder E α} {put : α → List UInt8} {p : α → Prop} {f : α → Decoder E β}
  {bytes rest : List UInt8} {b : β}

theorem Spells.step (hd : Spells d put p) (h : (d >>= f) bytes = .ok b rest) :
    ∃ a left, bytes = put a ++ left ∧ p a ∧ f a left = .ok b rest := by
  obtain ⟨a, left, ha, hf⟩ := EState.bind_eq_ok.mp h
  exact ⟨a, left, (hd bytes a left ha).1, (hd bytes a left ha).2, hf⟩

theorem take_spells (short : E) (count : Nat) :
    Spells (take short count) id fun front => front.length = count := by
  intro bytes front rest h
  rw [take] at h
  split at h
  · rename_i hle
    cases h
    exact ⟨(take_append_drop count bytes).symm, length_take_of_le hle⟩
  · cases h

theorem ensure_step {e : E} {f : Unit → Decoder E β}
    (h : (EState.ensure q e >>= f) bytes = .ok b rest) : q = true ∧ f () bytes = .ok b rest := by
  cases q with
  | true => exact ⟨rfl, h⟩
  | false => cases h

theorem get_step {f : List UInt8 → Decoder E β} (h : (get >>= f) bytes = .ok b rest) :
    f bytes bytes = .ok b rest := h

theorem pure_step {a b} (h : (Pure.pure a : Decoder E α) bytes = .ok b rest) :
    b = a ∧ rest = bytes := by
  cases h
  exact ⟨rfl, rfl⟩

/-- A decoder of its own takes nothing from the front. -/
theorem inside_step
    (h : (inside slot d >>= f) bytes = .ok b rest) :
    ∃ a left, d slot = .ok a left ∧ f a bytes = .ok b rest := by
  obtain ⟨a, left, ha, hf⟩ := EState.bind_eq_ok.mp h
  rw [inside] at ha
  split at ha
  · rename_i slotLeft hslot
    cases ha
    exact ⟨_, slotLeft, hslot, hf⟩
  · cases ha

theorem many_spells (hd : Spells d put p) (count : Nat) :
    Spells (many d count) (fun values => values.flatMap put) fun values =>
      values.length = count ∧ ∀ a ∈ values, p a := by
  induction count with
  | zero =>
    intro bytes values rest h
    cases h
    exact ⟨rfl, rfl, fun a ha => nomatch ha⟩
  | succ count ih =>
    intro bytes values rest h
    rw [many] at h
    obtain ⟨a, left, rfl, ha, h⟩ := hd.step h
    obtain ⟨values, left, rfl, ⟨hlength, hvalues⟩, h⟩ := ih.step h
    obtain ⟨rfl, rfl⟩ := pure_step h
    refine ⟨?_, congrArg (· + 1) hlength, ?_⟩
    · dsimp only
      rw [flatMap_cons, append_assoc]
    · intro other hother
      rcases mem_cons.mp hother with rfl | hother
      · exact ha
      · exact hvalues other hother

end Steps

/-! ## Bytes and numbers -/

def byte (short : E) : Decoder E UInt8 := do
  let bytes ← take short 1
  pure (bytes.headD 0)

def u64 (short : E) : Decoder E UInt64 := do
  let bytes ← take short 8
  pure (LittleEndian.toU64 bytes)

def u32 (short : E) : Decoder E UInt32 := do
  let bytes ← take short 4
  pure (LittleEndian.toU32 bytes)

theorem reads_byte (short : E) (b : UInt8) : Reads (byte short) [b] b := by
  have htake : Reads (take short 1) [b] [b] := Reads.take short rfl
  exact fun rest => EState.bind_ok (htake rest)

theorem reads_u64 (short : E) (n : UInt64) : Reads (u64 short) (LittleEndian.u64 n) n := by
  have h : Reads (u64 short) (LittleEndian.u64 n) (LittleEndian.toU64 (LittleEndian.u64 n)) :=
    (Reads.take _ (LittleEndian.length_u64 n)).bindLast (Reads.pure _)
  rwa [LittleEndian.toU64_u64] at h

theorem reads_u32 (short : E) (n : UInt32) : Reads (u32 short) (LittleEndian.u32 n) n := by
  have h : Reads (u32 short) (LittleEndian.u32 n) (LittleEndian.toU32 (LittleEndian.u32 n)) :=
    (Reads.take _ (LittleEndian.length_u32 n)).bindLast (Reads.pure _)
  rwa [LittleEndian.toU32_u32] at h

theorem byte_spells (short : E) : Spells (byte short) (fun b => [b]) fun _ => True := by
  intro bytes b rest h
  obtain ⟨front, left, rfl, hlength, h⟩ := (take_spells short 1).step h
  obtain ⟨rfl, rfl⟩ := pure_step h
  obtain ⟨b, rfl⟩ := length_eq_one_iff.mp hlength
  exact ⟨rfl, trivial⟩

theorem u64_spells (short : E) : Spells (u64 short) LittleEndian.u64 fun _ => True := by
  intro bytes n rest h
  obtain ⟨front, left, rfl, hlength, h⟩ := (take_spells short 8).step h
  obtain ⟨rfl, rfl⟩ := pure_step h
  exact ⟨by rw [LittleEndian.u64_toU64 hlength]; rfl, trivial⟩

theorem u32_spells (short : E) : Spells (u32 short) LittleEndian.u32 fun _ => True := by
  intro bytes n rest h
  obtain ⟨front, left, rfl, hlength, h⟩ := (take_spells short 4).step h
  obtain ⟨rfl, rfl⟩ := pure_step h
  exact ⟨by rw [LittleEndian.u32_toU32 hlength]; rfl, trivial⟩

end Decoder

end Ish.Lib
