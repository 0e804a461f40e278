import Mathlib.Tactic

/-!
# Words and bits in a byte array

A byte array is a function from offsets to bytes. `getU32 d j` is the `j`-th 32-bit word of `d`
(the bytes `4 * j .. 4 * j + 4`, least significant first), `setU32 d j v` stores one; `getU16` is
the same for 16-bit words. `bit d i` is bit `i % 8` of byte `i / 8`. `put d o l` stores the bytes
of a list from offset `o` on.
-/

namespace Bytes

/-- The 32-bit word `j` of `d`. -/
def getU32 (d : Nat → UInt8) (j : Nat) : Nat :=
  (d (4 * j)).toNat + 256 * (d (4 * j + 1)).toNat + 256 ^ 2 * (d (4 * j + 2)).toNat +
    256 ^ 3 * (d (4 * j + 3)).toNat

/-- `d` with `v` as its 32-bit word `j`. -/
def setU32 (d : Nat → UInt8) (j v : Nat) : Nat → UInt8 := fun i =>
  if i / 4 = j then UInt8.ofNat (v / 256 ^ (i % 4)) else d i

theorem getU32_lt (d : Nat → UInt8) (j : Nat) : getU32 d j < 2 ^ 32 := by
  have h0 := (d (4 * j)).toNat_lt
  have h1 := (d (4 * j + 1)).toNat_lt
  have h2 := (d (4 * j + 2)).toNat_lt
  have h3 := (d (4 * j + 3)).toNat_lt
  unfold getU32
  omega

theorem setU32_byte (d : Nat → UInt8) (j v k : Nat) (hk : k < 4) :
    (setU32 d j v (4 * j + k)).toNat = v / 256 ^ k % 256 := by
  have h1 : (4 * j + k) / 4 = j := by omega
  have h2 : (4 * j + k) % 4 = k := by omega
  simp [setU32, h1, h2]

theorem getU32_setU32_same (d : Nat → UInt8) (j v : Nat) (hv : v < 2 ^ 32) : getU32 (setU32 d j v) j = v := by
  have h0 := setU32_byte d j v 0 (by omega)
  have h1 := setU32_byte d j v 1 (by omega)
  have h2 := setU32_byte d j v 2 (by omega)
  have h3 := setU32_byte d j v 3 (by omega)
  simp only [Nat.add_zero] at h0
  unfold getU32
  rw [h0, h1, h2, h3]
  omega

variable {j k o n : Nat} {d e : Nat → UInt8} {l m : List UInt8}

theorem getU32_setU32_ne (d : Nat → UInt8) (v : Nat) (h : k ≠ j) : getU32 (setU32 d j v) k = getU32 d k := by
  have key : ∀ i, i < 4 → setU32 d j v (4 * k + i) = d (4 * k + i) := by
    intro i hi
    have : (4 * k + i) / 4 ≠ j := by omega
    simp [setU32, this]
  have h0 := key 0 (by omega)
  simp only [Nat.add_zero] at h0
  unfold getU32
  rw [h0, key 1 (by omega), key 2 (by omega), key 3 (by omega)]

/-- The zero array's words are zero. -/
theorem getU32_zero (j : Nat) : getU32 (fun _ => 0) j = 0 := by
  simp [getU32]

/-- The bytes of a word, least significant first, are read back as the word. -/
theorem getU32_of_bytes {v : Nat} (hv : v < 2 ^ 32)
    (h : ∀ k < 4, d (4 * j + k) = UInt8.ofNat (v / 256 ^ k)) : getU32 d j = v := by
  have h0 := h 0 (by omega)
  rw [Nat.add_zero] at h0
  unfold getU32
  rw [h0, h 1 (by omega), h 2 (by omega), h 3 (by omega)]
  simp only [UInt8.toNat_ofNat']
  omega

theorem getU32_congr (h : ∀ k < 4, d (4 * j + k) = e (4 * j + k)) : getU32 d j = getU32 e j := by
  have h0 := h 0 (by omega)
  rw [Nat.add_zero] at h0
  unfold getU32
  rw [h0, h 1 (by omega), h 2 (by omega), h 3 (by omega)]

/-! ## 16-bit words -/

/-- The 16-bit word `j` of `d`. -/
def getU16 (d : Nat → UInt8) (j : Nat) : Nat :=
  (d (2 * j)).toNat + 256 * (d (2 * j + 1)).toNat

theorem getU16_lt (d : Nat → UInt8) (j : Nat) : getU16 d j < 2 ^ 16 := by
  have h0 := (d (2 * j)).toNat_lt
  have h1 := (d (2 * j + 1)).toNat_lt
  unfold getU16
  omega

theorem getU16_of_bytes {v : Nat} (hv : v < 2 ^ 16)
    (h : ∀ k < 2, d (2 * j + k) = UInt8.ofNat (v / 256 ^ k)) : getU16 d j = v := by
  have h0 := h 0 (by omega)
  rw [Nat.add_zero] at h0
  unfold getU16
  rw [h0, h 1 (by omega)]
  simp only [UInt8.toNat_ofNat']
  omega

theorem getU16_congr (h : ∀ k < 2, d (2 * j + k) = e (2 * j + k)) : getU16 d j = getU16 e j := by
  have h0 := h 0 (by omega)
  rw [Nat.add_zero] at h0
  unfold getU16
  rw [h0, h 1 (by omega)]

/-! ## Bits -/

/-- `1 << (i % 8)`, the mask of bit `i` in its byte. -/
def mask (i : Nat) : UInt8 := 1 <<< UInt8.ofNat (i % 8)

/-- `d[i/8] & (1 << (i % 8))` is not zero. -/
def bit (d : Nat → UInt8) (i : Nat) : Bool := d (i / 8) &&& mask i != 0

/-- `d[i/8] |= 1 << (i % 8)`. -/
def setBit (d : Nat → UInt8) (i : Nat) : Nat → UInt8 := Function.update d (i / 8) (d (i / 8) ||| mask i)

/-- `d[i/8] &= ~(1 << (i % 8))`. -/
def clearBit (d : Nat → UInt8) (i : Nat) : Nat → UInt8 :=
  Function.update d (i / 8) (d (i / 8) &&& ~~~mask i)

theorem mask_toBitVec (i : Nat) : (mask i).toBitVec = BitVec.twoPow 8 (i % 8) := by
  have h : ∀ k < 8, (1 <<< UInt8.ofNat k : UInt8).toBitVec = BitVec.twoPow 8 k := by
    intro k hk
    interval_cases k <;> rfl
  exact h _ (Nat.mod_lt _ (by omega))

/-- The test with a mask reads the bit. -/
theorem and_mask (v : UInt8) (i : Nat) : (v &&& mask i != 0) = v.toBitVec.getLsbD (i % 8) := by
  have hk : i % 8 < 8 := Nat.mod_lt _ (by omega)
  rw [Bool.eq_iff_iff, bne_iff_ne, ne_eq, ← UInt8.toBitVec_inj, UInt8.toBitVec_and,
    mask_toBitVec, BitVec.and_twoPow]
  cases hb : v.toBitVec.getLsbD (i % 8) with
  | false => simp
  | true =>
    refine ⟨fun _ => rfl, fun _ h0 => ?_⟩
    have h1 := congrArg (fun x => x.getLsbD (i % 8)) h0
    simp [hk] at h1

theorem bit_eq (d : Nat → UInt8) (i : Nat) : bit d i = (d (i / 8)).toBitVec.getLsbD (i % 8) :=
  and_mask _ _

theorem bit_setBit (d : Nat → UInt8) (i j : Nat) : bit (setBit d i) j = if j = i then true else bit d j := by
  have hi : i % 8 < 8 := Nat.mod_lt _ (by omega)
  rw [bit_eq, bit_eq, setBit]
  by_cases h8 : j / 8 = i / 8
  · rw [h8, Function.update_self, UInt8.toBitVec_or, BitVec.getLsbD_or, mask_toBitVec,
      BitVec.getLsbD_twoPow]
    by_cases hj : j = i
    · simp [hj, hi]
    · have : i % 8 ≠ j % 8 := by omega
      simp [hj, this]
  · rw [Function.update_of_ne h8, if_neg (by rintro rfl; exact h8 rfl)]

theorem bit_clearBit (d : Nat → UInt8) (i j : Nat) : bit (clearBit d i) j = if j = i then false else bit d j := by
  have hi : i % 8 < 8 := Nat.mod_lt _ (by omega)
  have hj8 : j % 8 < 8 := Nat.mod_lt _ (by omega)
  rw [bit_eq, bit_eq, clearBit]
  by_cases h8 : j / 8 = i / 8
  · rw [h8, Function.update_self, UInt8.toBitVec_and, UInt8.toBitVec_not, BitVec.getLsbD_and,
      BitVec.getLsbD_not, mask_toBitVec, BitVec.getLsbD_twoPow]
    by_cases hj : j = i
    · simp [hj, hi]
    · have : i % 8 ≠ j % 8 := by omega
      simp [hj, this, hj8]
  · rw [Function.update_of_ne h8, if_neg (by rintro rfl; exact h8 rfl)]

/-! ## Stores of several bytes -/

/-- `d` with the bytes of `l` from offset `o` on. -/
def put (d : Nat → UInt8) (o : Nat) (l : List UInt8) : Nat → UInt8 := fun i =>
  if o ≤ i ∧ i < o + l.length then l.getD (i - o) 0 else d i

theorem put_outside {i : Nat} (h : i < o ∨ o + l.length ≤ i) : put d o l i = d i :=
  if_neg (by omega)

theorem put_inside (h : k < l.length) : put d o l (o + k) = l[k] := by
  rw [put, if_pos ⟨by omega, by omega⟩, Nat.add_sub_cancel_left]
  simp [h]

/-- The `n` bytes from offset `o` on. -/
def slice (d : Nat → UInt8) (o n : Nat) : List UInt8 := (List.range n).map fun k => d (o + k)

@[simp] theorem length_slice (d : Nat → UInt8) (o n : Nat) : (slice d o n).length = n := by
  simp [slice]

@[simp] theorem getElem_slice (d : Nat → UInt8) (h : k < (slice d o n).length) : (slice d o n)[k] = d (o + k) := by
  simp [slice]

theorem getElem?_slice (d : Nat → UInt8) (o n k : Nat) :
    (slice d o n)[k]? = if k < n then some (d (o + k)) else none := by
  by_cases h : k < n
  · simp [slice, h]
  · simp [slice, h]

theorem slice_add (d : Nat → UInt8) (o m n : Nat) : slice d o (m + n) = slice d o m ++ slice d (o + m) n := by
  simp only [slice, List.range_add, List.map_append, List.map_map, Function.comp_def, Nat.add_assoc]

theorem slice_congr {o' : Nat} (h : ∀ k < n, d (o + k) = e (o' + k)) : slice d o n = slice e o' n :=
  List.map_congr_left fun k hk => h k (List.mem_range.mp hk)

theorem take_drop_slice (d : Nat → UInt8) (s o n : Nat) :
    ((slice d 0 s).drop o).take n = slice d o (min n (s - o)) := by
  refine List.ext_getElem? fun j => ?_
  simp only [List.getElem?_take, List.getElem?_drop, getElem?_slice, Nat.zero_add]
  by_cases hn : j < n
  · by_cases hs : o + j < s
    · rw [if_pos hn, if_pos hs, if_pos (by omega)]
    · rw [if_pos hn, if_neg hs, if_neg (by omega)]
  · rw [if_neg hn, if_neg (by omega)]

/-- The bytes `m` over those from offset `o` on. -/
def splice (l : List UInt8) (o : Nat) (m : List UInt8) : List UInt8 :=
  l.take o ++ (m ++ l.drop (o + m.length))

theorem length_splice (h : o ≤ l.length) : (splice l o m).length = max l.length (o + m.length) := by
  simp only [splice, List.length_append, List.length_take, List.length_drop]
  omega

theorem getElem?_splice (h : o ≤ l.length) (i : Nat) :
    (splice l o m)[i]? = if o ≤ i ∧ i < o + m.length then m[i - o]? else l[i]? := by
  have hlen : (l.take o).length = o := by simp [h]
  rcases Nat.lt_or_ge i o with hi | hi
  · rw [splice, List.getElem?_append_left (by omega), List.getElem?_take_of_lt hi, if_neg (by omega)]
  · rw [splice, List.getElem?_append_right (by omega), hlen]
    rcases Nat.lt_or_ge (i - o) m.length with hm | hm
    · rw [List.getElem?_append_left hm, if_pos ⟨hi, by omega⟩]
    · rw [List.getElem?_append_right hm, List.getElem?_drop, if_neg (by omega)]
      congr 1
      omega

/-- Bytes read from a function that has been changed from offset `o` on. -/
theorem slice_eq_splice (ho : o ≤ n) (hin : ∀ j (h : j < m.length), e (o + j) = m[j])
    (hout : ∀ x < n, x < o ∨ o + m.length ≤ x → e x = d x) :
    slice e 0 (max n (o + m.length)) = splice (slice d 0 n) o m := by
  refine List.ext_getElem? fun i => ?_
  rw [getElem?_splice (by simpa using ho), getElem?_slice, Nat.zero_add]
  by_cases hi : o ≤ i ∧ i < o + m.length
  · obtain ⟨j, rfl⟩ := Nat.exists_eq_add_of_le hi.1
    have hj : j < m.length := by omega
    rw [if_pos (by omega), if_pos hi, Nat.add_sub_cancel_left, hin j hj, List.getElem?_eq_getElem hj]
  · rw [if_neg hi, getElem?_slice, Nat.zero_add]
    by_cases hn : i < n
    · rw [if_pos (by omega), if_pos hn, hout i hn (by omega)]
    · rw [if_neg (by omega), if_neg hn]

end Bytes
