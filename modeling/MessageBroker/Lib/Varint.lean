import MessageBroker.Lib.Bytes

/-!
# Variable-length integers

The reader of unsigned varints of at most ten bytes, seven bits a byte, lowest
first. It answers with the value and the number of bytes read, or with nothing if
the bytes end inside the number or the number does not fit 64 bits. A signed
varint is an unsigned one whose lowest bit is the sign.
-/
namespace MessageBroker.Lib.Varint

open Lib.Bytes

/-- The reader at byte `i`, with the bits collected so far. -/
def readUvarintFrom : Nat → Nat → ByteString → Option (Nat × Nat)
  | _, _, [] => none
  | i, acc, b :: bs =>
      if i = 10 then none
      else if b.toNat < 128 then
        if i = 9 ∧ 1 < b.toNat then none
        else some (acc ||| b.toNat <<< (7 * i), i + 1)
      else readUvarintFrom (i + 1) (acc ||| (b.toNat % 128) <<< (7 * i)) bs

def readUvarint (bs : ByteString) : Option (Nat × Nat) := readUvarintFrom 0 0 bs

/-- The sign is the lowest bit, and a negative number has all others flipped. -/
def unzigzag (u : Nat) : Int64 :=
  if u % 2 = 1 then ~~~ Int64.ofNat (u >>> 1) else Int64.ofNat (u >>> 1)

def readVarint (bs : ByteString) : Option (Int64 × Nat) :=
  (readUvarint bs).map fun r => (unzigzag r.1, r.2)

/-- Seven more bits above the first `7 * i`. -/
theorem or_shiftLeft_lt {i acc b : Nat} (hacc : acc < 2 ^ (7 * i)) (hb : b < 128) :
    acc ||| b <<< (7 * i) < 2 ^ (7 * (i + 1)) := by
  refine Nat.or_lt_two_pow (hacc.trans_le (Nat.pow_le_pow_right (by decide) (by omega))) ?_
  rw [Nat.shiftLeft_eq, show 7 * (i + 1) = 7 + 7 * i by omega, Nat.pow_add]
  exact Nat.mul_lt_mul_of_pos_right hb (by positivity)

theorem readUvarintFrom_some {i acc v k : Nat} {bs : ByteString} (hi : i ≤ 10)
    (hacc : acc < 2 ^ (7 * i)) (h : readUvarintFrom i acc bs = some (v, k)) :
    i < k ∧ k ≤ i + bs.length ∧ v < 2 ^ 64 := by
  induction bs generalizing i acc with
  | nil => cases h
  | cons b bs ih =>
    rw [readUvarintFrom] at h
    split at h
    · cases h
    rename_i hi10
    split at h
    · rename_i hb
      split at h
      · cases h
      rename_i hfit
      cases h
      refine ⟨by omega, by simp, ?_⟩
      by_cases h9 : i = 9
      · -- the tenth byte has room for one bit
        subst h9
        have hb1 : b.toNat ≤ 1 := by omega
        refine Nat.or_lt_two_pow (hacc.trans (by decide)) ?_
        rw [Nat.shiftLeft_eq]
        omega
      · exact (or_shiftLeft_lt hacc hb).trans_le (Nat.pow_le_pow_right (by decide) (by omega))
    · obtain ⟨h1, h2, h3⟩ := ih (by omega) (or_shiftLeft_lt hacc (Nat.mod_lt _ (by decide))) h
      exact ⟨by omega, by rw [List.length_cons]; omega, h3⟩

/-- A number that is read takes at least a byte of the input and fits 64 bits. -/
theorem readUvarint_some {v k : Nat} {bs : ByteString} (h : readUvarint bs = some (v, k)) :
    0 < k ∧ k ≤ bs.length ∧ v < 2 ^ 64 := by
  have := readUvarintFrom_some (by decide) (by decide) h
  omega

/-! ## The bits of one byte -/

/-- A byte of a number with its continuation bit. -/
theorem or_continuation (u : Nat) : (u ||| 0x80) % 256 = u % 128 + 128 := by
  have hlow : (u ||| 0x80) % 2 ^ 7 = u % 2 ^ 7 := by
    rw [Nat.or_mod_two_pow]
    exact Nat.or_zero _
  have hbit : ((u ||| 0x80) >>> 7) % 2 ^ 1 = 1 := by
    rw [Nat.shiftRight_or_distrib, Nat.or_mod_two_pow, Nat.pow_one]
    rcases Nat.mod_two_eq_zero_or_one (u >>> 7) with h | h
    · rw [h]
      rfl
    · rw [h]
      rfl
  rw [Nat.shiftRight_eq_div_pow] at hbit
  omega

/-- The lowest seven bits of a number and the others, put back together. -/
theorem low_or_high (u i : Nat) :
    (u % 128) <<< (7 * i) ||| (u >>> 7) <<< (7 * (i + 1)) = u <<< (7 * i) := by
  have hsplit : u % 128 ||| (u >>> 7) <<< 7 = u := by
    rw [Nat.or_comm, Nat.shiftLeft_eq, Nat.mul_comm,
      ← Nat.two_pow_add_eq_or_of_lt (Nat.mod_lt u (by decide)), Nat.shiftRight_eq_div_pow]
    omega
  rw [show 7 * (i + 1) = 7 + 7 * i by omega, Nat.shiftLeft_add, ← Nat.shiftLeft_or_distrib,
    hsplit]

end MessageBroker.Lib.Varint
