import Mathlib

/-!
# Big-endian fields in byte strings

Fixed-width numbers at fixed positions of a byte string: reading a field,
writing one in place, and which other fields that leaves alone. A file is a byte
string too; `readAt` and `writeAt` are its positioned read and write.
-/
namespace MessageBroker.Lib.Bytes

abbrev ByteString := List UInt8

def beNat (bs : ByteString) : Nat := bs.foldl (fun n b => n * 256 + b.toNat) 0

/-- The last `w` base-256 digits, most significant first. -/
def beBytes : Nat → Nat → ByteString
  | 0, _ => []
  | w + 1, n => beBytes w (n / 256) ++ [UInt8.ofNat n]

def field (bs : ByteString) (i w : Nat) : Nat := beNat ((bs.drop i).take w)

/-- Numbers of given widths, one after the other. -/
def beWords : List (Nat × Nat) → ByteString
  | [] => []
  | (w, n) :: words => beBytes w n ++ beWords words

/-- Overwrite `v.length` bytes from position `i`. -/
def patch (bs : ByteString) (i : Nat) (v : ByteString) : ByteString :=
  bs.take i ++ v ++ bs.drop (i + v.length)

/-- A positioned read of exactly `n` bytes. -/
def readAt (file : ByteString) (pos n : Nat) : Option ByteString :=
  if pos + n ≤ file.length then some ((file.drop pos).take n) else none

/-- A positioned write; a gap before `pos` reads as zeros. -/
def writeAt (file : ByteString) (pos : Nat) (buf : ByteString) : ByteString :=
  file.take pos ++ List.replicate (pos - file.length) 0 ++ buf ++ file.drop (pos + buf.length)

/-- The two's complement reading of a 32-bit word. -/
def int32 (n : Nat) : Int := if n < 2 ^ 31 then n else (n : Int) - 2 ^ 32

theorem beNat_append (a b : ByteString) : beNat (a ++ b) = beNat a * 256 ^ b.length + beNat b := by
  induction b using List.reverseRecOn with
  | nil => simp [beNat]
  | append_singleton b x ih =>
    have step : ∀ c : ByteString, beNat (c ++ [x]) = beNat c * 256 + x.toNat := by
      intro c
      simp [beNat]
    rw [← List.append_assoc, step, step, ih, List.length_append, List.length_singleton, pow_succ]
    ring

theorem beNat_lt (bs : ByteString) : beNat bs < 256 ^ bs.length := by
  induction bs using List.reverseRecOn with
  | nil => simp [beNat]
  | append_singleton bs x ih =>
    have hx : x.toNat < 256 := x.toNat_lt
    have h1 : beNat [x] = x.toNat := by simp [beNat]
    rw [beNat_append, List.length_append, List.length_singleton, pow_succ, h1]
    omega

@[simp] theorem length_beBytes (w n : Nat) : (beBytes w n).length = w := by
  induction w generalizing n with
  | zero => rfl
  | succ w ih => simp [beBytes, ih]

theorem beNat_beBytes (w n : Nat) : beNat (beBytes w n) = n % 256 ^ w := by
  induction w generalizing n with
  | zero => simp [beBytes, beNat, Nat.mod_one]
  | succ w ih =>
    have h1 : beNat [UInt8.ofNat n] = n % 256 := by simp [beNat]
    rw [beBytes, beNat_append, ih, h1, List.length_singleton, pow_one, pow_succ]
    have hmod : n % (256 ^ w * 256) = n % 256 + 256 * (n / 256 % 256 ^ w) := by
      rw [mul_comm, Nat.mod_mul]
    omega

theorem beNat_beBytes_of_lt {w n : Nat} (h : n < 256 ^ w) : beNat (beBytes w n) = n := by
  rw [beNat_beBytes, Nat.mod_eq_of_lt h]

/-- Only the digits that fit are written. -/
theorem beBytes_mod (w n : Nat) : beBytes w (n % 256 ^ w) = beBytes w n := by
  induction w generalizing n with
  | zero => rfl
  | succ w ih =>
    have hdiv : n % 256 ^ (w + 1) / 256 = n / 256 % 256 ^ w := by
      rw [pow_succ, Nat.mul_comm, Nat.mod_mul_right_div_self]
    have hlast : UInt8.ofNat (n % 256 ^ (w + 1)) = UInt8.ofNat n := by
      apply UInt8.toNat_inj.mp
      rw [UInt8.toNat_ofNat', UInt8.toNat_ofNat']
      exact Nat.mod_mod_of_dvd n (Dvd.intro_left (256 ^ w) rfl)
    rw [beBytes, beBytes, hdiv, ih, hlast]

/-! ## Fields -/

theorem field_lt (bs : ByteString) (i w : Nat) : field bs i w < 256 ^ w := by
  have h := beNat_lt ((bs.drop i).take w)
  have hlen : ((bs.drop i).take w).length ≤ w := List.length_take_le _ _
  exact h.trans_le (Nat.pow_le_pow_right (by decide) hlen)

theorem field_append_left {a b : ByteString} {i w : Nat} (h : i + w ≤ a.length) :
    field (a ++ b) i w = field a i w := by
  unfold field
  rw [List.drop_append_of_le_length (by omega), List.take_append_of_le_length]
  rw [List.length_drop]
  omega

theorem field_append_right (a b : ByteString) (i w : Nat) :
    field (a ++ b) (a.length + i) w = field b i w := by
  unfold field
  rw [List.drop_append, List.drop_of_length_le (by omega), Nat.add_sub_cancel_left,
    List.nil_append]

theorem field_take {bs : ByteString} {k i w : Nat} (h : i + w ≤ k) :
    field (bs.take k) i w = field bs i w := by
  unfold field
  rw [List.drop_take, List.take_take]
  congr 2
  omega

theorem length_beWords (words : List (Nat × Nat)) :
    (beWords words).length = (words.map Prod.fst).sum := by
  induction words with
  | nil => rfl
  | cons word words ih =>
    rw [beWords, List.length_append, length_beBytes, ih, List.map_cons, List.sum_cons]

/-- Each word is the field at the position where the words before it end. -/
theorem field_beWords {words : List (Nat × Nat)} {k w n : Nat} (h : words[k]? = some (w, n))
    (tail : ByteString) :
    field (beWords words ++ tail) ((words.take k).map Prod.fst).sum w = n % 256 ^ w := by
  induction k generalizing words with
  | zero =>
    cases words with
    | nil => cases h
    | cons word words =>
      cases h
      rw [beWords, List.append_assoc, List.take_zero, List.map_nil, List.sum_nil, field,
        List.drop_zero, List.take_left' (length_beBytes w n), beNat_beBytes]
  | succ k ih =>
    cases words with
    | nil => cases h
    | cons word words =>
      have hfield := field_append_right (beBytes word.1 word.2) (beWords words ++ tail)
        ((words.take k).map Prod.fst).sum w
      rw [length_beBytes] at hfield
      rw [beWords, List.append_assoc, List.take_succ_cons, List.map_cons, List.sum_cons, hfield]
      exact ih h

/-! ## Writing in place -/

theorem length_patch {bs v : ByteString} {i : Nat} (h : i + v.length ≤ bs.length) :
    (patch bs i v).length = bs.length := by
  simp only [patch, List.length_append, List.length_take, List.length_drop]
  omega

theorem field_patch_self {bs v : ByteString} {i : Nat} (h : i ≤ bs.length) :
    field (patch bs i v) i v.length = beNat v := by
  have hlen : (bs.take i).length = i := by rw [List.length_take]; omega
  unfold patch field
  rw [List.append_assoc, List.drop_append_of_le_length (by omega), List.drop_take]
  simp

/-- A field that ends before the write is unchanged. -/
theorem field_patch_before {bs v : ByteString} {i j w : Nat} (hi : i ≤ bs.length) (h : j + w ≤ i) :
    field (patch bs i v) j w = field bs j w := by
  have hlen : (bs.take i).length = i := by rw [List.length_take]; omega
  unfold patch
  rw [List.append_assoc, field_append_left (by omega), field_take h]

theorem drop_patch {bs v : ByteString} {i k : Nat} (hi : i + v.length ≤ bs.length)
    (h : i + v.length ≤ k) : (patch bs i v).drop k = bs.drop k := by
  have hlen : (bs.take i ++ v).length = i + v.length := by
    rw [List.length_append, List.length_take]
    omega
  unfold patch
  rw [List.drop_append, List.drop_of_length_le (by omega), hlen, List.drop_drop, List.nil_append]
  congr 1
  omega

/-- A byte outside the write is unchanged. -/
theorem getElem?_patch {bs v : ByteString} {i k : Nat} (hi : i + v.length ≤ bs.length)
    (h : k < i ∨ i + v.length ≤ k) : (patch bs i v)[k]? = bs[k]? := by
  rcases h with h | h
  · unfold patch
    rw [List.append_assoc, List.getElem?_append_left (by rw [List.length_take]; omega),
      List.getElem?_take_of_lt h]
  · have hdrop := congrArg (fun l => l[0]?) (drop_patch hi h)
    simpa only [List.getElem?_drop, Nat.add_zero] using hdrop

/-- A field that starts after the write is unchanged. -/
theorem field_patch_after {bs v : ByteString} {i j w : Nat} (hi : i + v.length ≤ bs.length)
    (h : i + v.length ≤ j) : field (patch bs i v) j w = field bs j w := by
  unfold field
  rw [drop_patch hi h]

theorem patch_append_left {a b v : ByteString} {i : Nat} (h : i + v.length ≤ a.length) :
    patch (a ++ b) i v = patch a i v ++ b := by
  unfold patch
  rw [List.take_append_of_le_length (by omega), List.drop_append_of_le_length h]
  simp only [List.append_assoc]

theorem patch_append_right (a b v : ByteString) (i : Nat) :
    patch (a ++ b) (a.length + i) v = a ++ patch b i v := by
  unfold patch
  rw [List.take_append, List.take_of_length_le (by omega), List.drop_append,
    List.drop_of_length_le (by omega)]
  have h1 : a.length + i - a.length = i := by omega
  have h2 : a.length + i + v.length - a.length = i + v.length := by omega
  rw [h1, h2]
  simp only [List.append_assoc, List.nil_append]

/-! ## Positioned reads and writes -/

theorem readAt_append {a b c : ByteString} {n : Nat} (h : n ≤ b.length) :
    readAt (a ++ (b ++ c)) a.length n = some (b.take n) := by
  unfold readAt
  rw [if_pos (by simp only [List.length_append]; omega), List.drop_left,
    List.take_append_of_le_length h]

theorem readAt_of_le {file : ByteString} {pos n : Nat} (h : pos + n ≤ file.length) :
    readAt file pos n = some ((file.drop pos).take n) := by
  rw [readAt, if_pos h]

theorem readAt_of_short {file : ByteString} {pos n : Nat} (h : file.length < pos + n) :
    readAt file pos n = none := by
  rw [readAt, if_neg (by omega)]

theorem writeAt_length (file buf : ByteString) : writeAt file file.length buf = file ++ buf := by
  simp [writeAt]

theorem length_writeAt (file : ByteString) (pos : Nat) (buf : ByteString) :
    (writeAt file pos buf).length = max file.length (pos + buf.length) := by
  unfold writeAt
  simp only [List.length_append, List.length_take, List.length_replicate, List.length_drop]
  omega

/-! A write inside a file or at its end. -/

section WriteAt

variable {file buf : ByteString} {pos : Nat}

theorem writeAt_take (h : pos ≤ file.length) :
    writeAt (file.take pos) pos buf = file.take pos ++ buf := by
  have hend := writeAt_length (file.take pos) buf
  rwa [List.length_take, Nat.min_eq_left h] at hend

theorem take_writeAt (h : pos ≤ file.length) :
    (writeAt file pos buf).take (pos + buf.length) = file.take pos ++ buf := by
  have hlen : (file.take pos ++ buf).length = pos + buf.length := by
    rw [List.length_append, List.length_take]
    omega
  unfold writeAt
  rw [Nat.sub_eq_zero_of_le h, List.replicate_zero, List.append_nil, ← hlen, List.take_left]

theorem take_writeAt_before (h : pos ≤ file.length) :
    (writeAt file pos buf).take pos = file.take pos := by
  have hlen : (file.take pos).length = pos := by
    rw [List.length_take]
    omega
  unfold writeAt
  rw [List.append_assoc, List.append_assoc, List.take_append_of_le_length (by omega),
    List.take_of_length_le (by omega)]

theorem le_length_writeAt : pos + buf.length ≤ (writeAt file pos buf).length := by
  rw [length_writeAt]
  exact le_max_right _ _

end WriteAt

theorem int32_of_lt {n : Nat} (h : n < 2 ^ 31) : int32 n = n := if_pos h

theorem int32_neg {n : Nat} (hn : n < 2 ^ 32) (h : ¬ n < 2 ^ 31) : int32 n < 0 := by
  rw [int32, if_neg h]
  omega

end MessageBroker.Lib.Bytes
