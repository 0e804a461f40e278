import Xv6.Grep.Match
import Xv6.Lib.Bytes

/-!
# The read loop of `user/grep.c`

`grep` reads into a buffer of 1024 bytes, after the bytes of a line that is not complete yet, and hands
every complete line to `match`. The input is the list of bytes that are not read yet; how many of them the
`i`-th `read` finds is `avail i + 1`, so that `avail` stands for every way to split the input.
`grepLoop_eq` says what is written: the lines that match, up to the first line that does not fit.
-/

namespace Xv6.Grep

open Bytes
open Function (update update_of_ne update_self)

/-- `sizeof (buf)`. -/
def bufSize : Nat := 1024

/-- `'\n'`. -/
def newline : UInt8 := 10

/-! ## The code -/

/-- `strchr`: the offset of the first `c` before the NUL, in the `k` bytes from offset `s` on. -/
def strchr (buf : Nat → UInt8) (c : UInt8) : Nat → Nat → Option Nat
  | 0, _ => none
  | k + 1, s => if buf s = 0 then none else if buf s = c then some s else strchr buf c k (s + 1)

/-- The string at offset `s`: the bytes before the NUL. -/
def cstr (buf : Nat → UInt8) : Nat → Nat → List UInt8
  | 0, _ => []
  | k + 1, s => if buf s = 0 then [] else buf s :: cstr buf k (s + 1)

/-- The inner loop of `grep`, with `p` and the bytes written so far; it returns the buffer, `p` and what is
written when no newline is left. -/
def lineLoop (re : List UInt8) : Nat → (Nat → UInt8) → Nat → List UInt8 →
    Option ((Nat → UInt8) × Nat × List UInt8)
  | 0, _, _, _ => none
  | fuel + 1, buf, p, out =>
    match strchr buf newline (bufSize - p) p with
    | none => some (buf, p, out)
    | some q =>
      let buf := update buf q 0
      if matchRe re (cstr buf (bufSize - p) p) then
        let buf := update buf q newline
        lineLoop re fuel buf (q + 1) (out ++ slice buf p (q + 1 - p))
      else lineLoop re fuel buf (q + 1) out

/-- The outer loop of `grep`: the `i`-th `read` and all that follow. -/
def grepLoop (re : List UInt8) (avail : Nat → Nat) : Nat → Nat → (Nat → UInt8) → Nat → List UInt8 →
    List UInt8 → Option (List UInt8)
  | 0, _, _, _, _, _ => none
  | fuel + 1, i, buf, m, inp, out =>
    let n := min (min (avail i + 1) (bufSize - m - 1)) inp.length
    if n = 0 then some out
    else
      let buf := put buf m (inp.take n)
      let m := m + n
      let buf := update buf m 0
      match lineLoop re bufSize buf 0 out with
      | none => none
      | some (buf, p, out) =>
        if 0 < m then grepLoop re avail fuel (i + 1) (put buf 0 (slice buf p (m - p))) (m - p) (inp.drop n) out
        else grepLoop re avail fuel (i + 1) buf m (inp.drop n) out

/-- `grep`: what it writes for the input `inp`. -/
def grep (re : List UInt8) (avail : Nat → Nat) (inp : List UInt8) : Option (List UInt8) :=
  grepLoop re avail (inp.length + 1) 0 (fun _ => 0) 0 inp []

/-! ## Lines -/

/-- The lines of `l` that end in a newline, without it, when `cur` is the beginning of the first one. -/
def linesFrom (cur : List UInt8) : List UInt8 → List (List UInt8)
  | [] => []
  | c :: l => if c = newline then cur :: linesFrom [] l else linesFrom (cur ++ [c]) l

/-- The lines of `l` that end in a newline, without it. -/
def lines (l : List UInt8) : List (List UInt8) := linesFrom [] l

/-- Lines, each with its newline. -/
def unlines (ls : List (List UInt8)) : List UInt8 := ls.flatMap (· ++ [newline])

/-- The lines that match, each with its newline. -/
def selected (re : List UInt8) (ls : List (List UInt8)) : List UInt8 := unlines (ls.filter (matchRe re))

variable {a l b : List UInt8} {ls : List (List UInt8)} {buf : Nat → UInt8} {p k : Nat}

theorem linesFrom_cons (ha : newline ∉ a) (cur b : List UInt8) :
    linesFrom cur (a ++ newline :: b) = (cur ++ a) :: linesFrom [] b := by
  induction a generalizing cur with
  | nil => simp [linesFrom]
  | cons c a ih =>
    obtain ⟨hc, ha⟩ := List.ne_and_not_mem_of_not_mem_cons ha
    rw [List.cons_append, linesFrom, if_neg (Ne.symm hc), ih ha, List.append_assoc, List.singleton_append]

theorem linesFrom_of_notMem (ha : newline ∉ a) (cur : List UInt8) : linesFrom cur a = [] := by
  induction a generalizing cur with
  | nil => rfl
  | cons c a ih =>
    obtain ⟨hc, ha⟩ := List.ne_and_not_mem_of_not_mem_cons ha
    rw [linesFrom, if_neg (Ne.symm hc), ih ha]

/-- The lines of a text are the lines it is made of. -/
theorem lines_unlines (h : ∀ l ∈ ls, newline ∉ l) (r : List UInt8) : lines (unlines ls ++ r) = ls ++ lines r := by
  induction ls with
  | nil => rfl
  | cons l ls ih =>
    obtain ⟨hl, hls⟩ := List.forall_mem_cons.mp h
    have hcons : unlines (l :: ls) ++ r = l ++ newline :: (unlines ls ++ r) := by simp [unlines]
    rw [hcons, lines, linesFrom_cons hl, List.nil_append, List.cons_append]
    exact congrArg (l :: ·) (ih hls)

/-- The first line contains what stands before the first newline. -/
theorem length_le_of_lines {r : List UInt8} (ha : newline ∉ a)
    (h : lines (a ++ r) = l :: ls) : a.length ≤ l.length := by
  by_cases hr : newline ∈ r
  · obtain ⟨x, y, rfl, hx⟩ := List.eq_append_cons_of_mem hr
    have hax : newline ∉ a ++ x := by simp [ha, hx]
    rw [← List.append_assoc, lines, linesFrom_cons hax] at h
    cases h
    simp
  · have har : newline ∉ a ++ r := by simp [ha, hr]
    rw [lines, linesFrom_of_notMem har] at h
    cases h

@[simp] theorem selected_append (re : List UInt8) (ls ls' : List (List UInt8)) :
    selected re (ls ++ ls') = selected re ls ++ selected re ls' := by
  simp [selected, unlines]

theorem selected_cons (re l : List UInt8) (ls : List (List UInt8)) :
    selected re (l :: ls) = (if matchRe re l then l ++ [newline] else []) ++ selected re ls := by
  cases h : matchRe re l <;> simp [selected, unlines, h]

theorem selected_eq_nil {re : List UInt8} : selected re ls = [] ↔ ∀ l ∈ ls, matchRe re l = false := by
  simp [selected, unlines]

/-- A line of a text is shorter than the text. -/
theorem length_lt_unlines (h : l ∈ ls) : l.length < (unlines ls).length := by
  obtain ⟨a, b, rfl⟩ := List.append_of_mem h
  simp [unlines]
  omega

/-! ## Strings in the buffer -/

/-- The string at offset `p` of the buffer is `l`. -/
structure Holds (buf : Nat → UInt8) (p : Nat) (l : List UInt8) : Prop where
  bytes : ∀ k (h : k < l.length), buf (p + k) = l[k]
  stop : buf (p + l.length) = 0
  room : p + l.length < bufSize
  nonzero : 0 ∉ l

theorem Holds.tail {c : UInt8} (h : Holds buf p (c :: l)) : buf p = c ∧ c ≠ 0 ∧ Holds buf (p + 1) l := by
  have hlen : (c :: l).length = l.length + 1 := rfl
  have hstop := h.stop
  have hroom := h.room
  rw [hlen] at hstop hroom
  obtain ⟨hc, hl⟩ := List.ne_and_not_mem_of_not_mem_cons h.nonzero
  refine ⟨h.bytes 0 (by simp), Ne.symm hc, fun k hk => ?_, ?_, by omega, hl⟩
  · have := h.bytes (k + 1) (by omega)
    rwa [← Nat.add_assoc, Nat.add_right_comm] at this
  · rwa [← Nat.add_assoc, Nat.add_right_comm] at hstop

theorem Holds.drop (h : Holds buf p (a ++ b)) : Holds buf (p + a.length) b := by
  induction a generalizing p with
  | nil => exact h
  | cons c a ih =>
    have := ih h.tail.2.2
    rwa [Nat.add_assoc, Nat.add_comm 1] at this

variable {buf' : Nat → UInt8} {fuel : Nat} {cur inp : List UInt8}

theorem Holds.congr (h : Holds buf p l)
    (hb : ∀ i, p ≤ i → buf' i = buf i) : Holds buf' p l where
  bytes k hk := by rw [hb _ (by omega), h.bytes k hk]
  stop := by rw [hb _ (by omega), h.stop]
  room := h.room
  nonzero := h.nonzero

theorem Holds.cstr (h : Holds buf p l) (hk : bufSize ≤ k + p) : cstr buf k p = l := by
  induction l generalizing p k with
  | nil =>
    cases k with
    | zero => rfl
    | succ k =>
      have h0 : buf p = 0 := h.stop
      rw [Grep.cstr, if_pos h0]
  | cons c l ih =>
    obtain ⟨hc, hne, ht⟩ := h.tail
    obtain ⟨k, rfl⟩ : ∃ j, k = j + 1 := ⟨k - 1, by have := h.room; omega⟩
    rw [Grep.cstr, hc, if_neg hne, ih ht (by omega)]

theorem Holds.strchr_none (h : Holds buf p l) (hl : newline ∉ l) : strchr buf newline k p = none := by
  induction l generalizing p k with
  | nil =>
    cases k with
    | zero => rfl
    | succ k =>
      have h0 : buf p = 0 := h.stop
      rw [strchr, if_pos h0]
  | cons c l ih =>
    cases k with
    | zero => rfl
    | succ k =>
      obtain ⟨hc, hne, ht⟩ := h.tail
      obtain ⟨hcn, hl⟩ := List.ne_and_not_mem_of_not_mem_cons hl
      rw [strchr, hc, if_neg hne, if_neg (Ne.symm hcn), ih ht hl]

section

variable (h : Holds buf p (a ++ newline :: b))
include h

theorem Holds.strchr_some (ha : newline ∉ a) (hk : bufSize ≤ k + p) :
    strchr buf newline k p = some (p + a.length) := by
  induction a generalizing p k with
  | nil =>
    obtain ⟨hc, hne, -⟩ := Holds.tail h
    obtain ⟨k, rfl⟩ : ∃ j, k = j + 1 := ⟨k - 1, by have := h.room; omega⟩
    rw [strchr, hc, if_neg hne, if_pos rfl]
    rfl
  | cons c a ih =>
    obtain ⟨hc, hne, ht⟩ := Holds.tail h
    obtain ⟨hcn, ha⟩ := List.ne_and_not_mem_of_not_mem_cons ha
    obtain ⟨k, rfl⟩ : ∃ j, k = j + 1 := ⟨k - 1, by have := h.room; omega⟩
    rw [strchr, hc, if_neg hne, if_neg (Ne.symm hcn), ih ht ha (by omega), List.length_cons]
    congr 1
    omega

/-- `*q = 0` ends the string at the newline. -/
theorem Holds.cut :
    Holds (update buf (p + a.length) 0) p a where
  bytes k hk := by
    rw [update_of_ne (by omega), h.bytes k (by simp; omega)]
    simp [hk]
  stop := update_self ..
  room := by
    have := h.room
    simp at this
    omega
  nonzero hm := h.nonzero (List.mem_append_left _ hm)

/-- The string after the newline, when the byte of the newline has been changed. -/
theorem Holds.next (hb : ∀ i, i ≠ p + a.length → buf' i = buf i) : Holds buf' (p + a.length + 1) b := by
  have ht := (Holds.drop h).tail.2.2
  apply ht.congr
  intro i hi
  exact hb i (by omega)

/-- With the newline back in its place, the line is written with it. -/
theorem Holds.slice_line :
    slice (update (update buf (p + a.length) 0) (p + a.length) newline) p (a.length + 1) =
      a ++ [newline] := by
  apply List.ext_getElem (by simp)
  intro k hk hk'
  rw [length_slice] at hk
  rw [getElem_slice]
  rcases Nat.lt_or_ge k a.length with hka | hka
  · rw [update_of_ne (by omega), h.cut.bytes k hka]
    simp [hka]
  · obtain rfl : k = a.length := by omega
    rw [update_self]
    simp

end

/-! ## The loops -/

/-- The inner loop writes the complete lines that match; what is left is the beginning of a line. -/
theorem lineLoop_spec (re : List UInt8)
    (h : Holds buf p l) (hf : l.length < fuel) (out : List UInt8) :
    ∃ buf' p' ls r, lineLoop re fuel buf p out = some (buf', p', out ++ selected re ls) ∧
      l = unlines ls ++ r ∧ (∀ l ∈ ls, newline ∉ l) ∧ newline ∉ r ∧ p' = p + (unlines ls).length ∧
      Holds buf' p' r := by
  induction fuel generalizing buf p l out with
  | zero => omega
  | succ fuel ih =>
    by_cases hl : newline ∈ l
    · obtain ⟨a, b, rfl, ha⟩ := List.eq_append_cons_of_mem hl
      have hlen : (a ++ newline :: b).length = a.length + b.length + 1 := by simp; omega
      have hroom := h.room
      -- whether the line matches or not, what follows it is scanned with some buffer that agrees there
      have key : ∃ buf', (∀ i, i ≠ p + a.length → buf' i = buf i) ∧
          lineLoop re (fuel + 1) buf p out =
            lineLoop re fuel buf' (p + a.length + 1) (out ++ if matchRe re a then a ++ [newline] else []) := by
        rw [lineLoop, h.strchr_some ha (by omega)]
        simp only [h.cut.cstr (k := bufSize - p) (by omega)]
        cases hm : matchRe re a with
        | true =>
          refine ⟨update (update buf (p + a.length) 0) (p + a.length) newline, ?_, ?_⟩
          · intro i hi
            rw [update_of_ne hi, update_of_ne hi]
          · rw [if_pos rfl, show p + a.length + 1 - p = a.length + 1 by omega, h.slice_line]
            rfl
        | false =>
          refine ⟨update buf (p + a.length) 0, fun i hi => update_of_ne hi .., ?_⟩
          rw [if_neg (by simp), if_neg (by simp), List.append_nil]
      obtain ⟨buf', hbuf', heq⟩ := key
      obtain ⟨buf'', p', ls, r, hrun, rfl, hls, hr, hp', hh⟩ := ih (h.next hbuf') (by omega)
        (out ++ if matchRe re a then a ++ [newline] else [])
      refine ⟨buf'', p', a :: ls, r, ?_, ?_, List.forall_mem_cons.mpr ⟨ha, hls⟩, hr, ?_, hh⟩
      · rw [heq, hrun, selected_cons, List.append_assoc]
      · simp [unlines]
      · rw [hp']
        simp [unlines]
        omega
    · refine ⟨buf, p, [], l, ?_, rfl, by simp, hl, rfl, h⟩
      rw [lineLoop, h.strchr_none hl]
      simp [selected, unlines]

/-- The line `cur` begins in the buffer and `read` puts `l` after it. -/
theorem Holds.read (h : ∀ k (h : k < cur.length), buf k = cur[k])
    (hroom : cur.length + l.length < bufSize) (hcur : 0 ∉ cur) (hl : 0 ∉ l) :
    Holds (update (put buf cur.length l) (cur.length + l.length) 0) 0 (cur ++ l) where
  bytes k hk := by
    rw [List.length_append] at hk
    rw [Nat.zero_add, update_of_ne (by omega)]
    rcases Nat.lt_or_ge k cur.length with hkc | hkc
    · rw [put_outside (.inl hkc), h k hkc, List.getElem_append_left hkc]
    · obtain ⟨j, rfl⟩ := Nat.exists_eq_add_of_le hkc
      rw [put_inside (by omega), List.getElem_append_right (by omega)]
      simp
  stop := by rw [Nat.zero_add, List.length_append, update_self]
  room := by simpa using hroom
  nonzero := by simp [hcur, hl]

/-- The outer loop, when the beginning `cur` of a line is in the buffer: it writes the lines that match,
up to the first line that does not fit in the buffer with its newline. -/
theorem grepLoop_eq (re : List UInt8) (avail : Nat → Nat) {i : Nat} (hcur : ∀ k (h : k < cur.length), buf k = cur[k])
    (hnl : newline ∉ cur) (hroom : cur.length < bufSize) (h0 : 0 ∉ cur ++ inp)
    (hf : inp.length < fuel) (out : List UInt8) : grepLoop re avail fuel i buf cur.length inp out =
      some (out ++ selected re ((lines (cur ++ inp)).takeWhile (·.length < bufSize - 1))) := by
  induction fuel generalizing i buf cur inp out with
  | zero => omega
  | succ fuel ih =>
    obtain ⟨h0c, h0i⟩ : 0 ∉ cur ∧ 0 ∉ inp := by simpa using h0
    rw [grepLoop]
    generalize hn : min (min (avail i + 1) (bufSize - cur.length - 1)) inp.length = n
    by_cases hn0 : n = 0
    · -- the end of the input, or no room for another byte
      have hstop : (lines (cur ++ inp)).takeWhile (·.length < bufSize - 1) = [] := by
        rcases Nat.eq_zero_or_pos inp.length with hi | hi
        · rw [List.length_eq_zero_iff.mp hi, List.append_nil, lines, linesFrom_of_notMem hnl]
          rfl
        · cases hl : lines (cur ++ inp) with
          | nil => rfl
          | cons l ls =>
            have hle := length_le_of_lines hnl hl
            exact List.takeWhile_cons_of_neg (by simp; omega)
      simp only [if_pos hn0]
      rw [hstop]
      simp [selected, unlines]
    · simp only [if_neg hn0]
      have hlen : (inp.take n).length = n := by simp; omega
      have hread := Holds.read (l := inp.take n) hcur (by omega) h0c fun hm => h0i (List.mem_of_mem_take hm)
      rw [hlen] at hread
      have hfuel : (cur ++ inp.take n).length < bufSize := by
        simp
        omega
      obtain ⟨buf', p, ls, r, hrun, hsplit, hls, hr, rfl, hh⟩ := lineLoop_spec re hread hfuel out
      have hsum : cur.length + n = (unlines ls).length + r.length := by
        have := congrArg List.length hsplit
        simpa [hlen] using this
      have hm : cur.length + n - (0 + (unlines ls).length) = r.length := by omega
      rw [hrun]
      simp only [if_pos (show 0 < cur.length + n by omega), hm]
      have hinp : cur ++ inp = unlines ls ++ (r ++ inp.drop n) := by
        rw [← List.append_assoc, ← hsplit, List.append_assoc, List.take_append_drop]
      have hshort : ∀ l ∈ ls, decide (l.length < bufSize - 1) = true := by
        intro l hl
        have := length_lt_unlines hl
        exact decide_eq_true (by omega)
      rw [ih ?_ hr (by omega) ?_ (by simp; omega), hinp, lines_unlines hls,
        List.takeWhile_append_of_pos hshort, selected_append, List.append_assoc]
      · intro k hk
        have hput := put_inside (d := buf') (o := 0) (l := slice buf' (0 + (unlines ls).length) r.length)
          (k := k) (by simpa using hk)
        rw [getElem_slice, hh.bytes k hk, Nat.zero_add k] at hput
        exact hput
      · rw [hinp] at h0
        exact fun hmem => h0 (List.mem_append_right _ hmem)

theorem grep_eq (re : List UInt8) (avail : Nat → Nat) (h0 : 0 ∉ inp) :
    grep re avail inp = some (selected re ((lines inp).takeWhile (·.length < bufSize - 1))) := by
  have hempty : ([] : List UInt8).length < bufSize := by decide
  exact grepLoop_eq re avail (by simp) (by simp) hempty h0 (by omega) []

/-- However `read` splits the input, `grep` writes exactly the lines that match, provided that no line
matches from the first line of 1023 bytes or more on: such a line never fits in the buffer with its newline,
and `grep` stops there. -/
theorem grep_filters_iff (re : List UInt8) (avail : Nat → Nat) (inp : List UInt8) (h0 : 0 ∉ inp) :
    grep re avail inp = some (selected re (lines inp)) ↔
      ∀ l ∈ (lines inp).dropWhile (·.length < bufSize - 1), matchRe re l = false := by
  have hsplit : selected re (lines inp) =
      selected re ((lines inp).takeWhile (·.length < bufSize - 1)) ++
        selected re ((lines inp).dropWhile (·.length < bufSize - 1)) := by
    rw [← selected_append, List.takeWhile_append_dropWhile]
  rw [grep_eq re avail h0, Option.some_inj, hsplit, List.self_eq_append_right, selected_eq_nil]

/-- The lines `ab` and `b` of `"ab\nb\n"`, read byte by byte, and the pattern `a`. -/
theorem grep_filters_iff_ab :
    grep [97] (fun _ => 0) [97, 98, 10, 98, 10] = some [97, 98, 10] := by
  have h := (grep_filters_iff [97] (fun _ => 0) [97, 98, 10, 98, 10] (by decide)).mpr (by decide)
  rw [h]
  decide

/-- A line of 1023 times `a` is not written, although it matches the pattern `a`. -/
theorem grep_long_line :
    grep [97] (fun _ => 1023) (List.replicate 1023 97 ++ [10]) = some [] ∧
      selected [97] (lines (List.replicate 1023 97 ++ [10])) = List.replicate 1023 97 ++ [10] := by
  have hnl : newline ∉ List.replicate 1023 (97 : UInt8) := by
    intro h
    exact absurd (List.eq_of_mem_replicate h) (by decide)
  have hlines : lines (List.replicate 1023 97 ++ [10]) = [List.replicate 1023 97] :=
    linesFrom_cons hnl [] []
  have hmatch : matchRe [97] (List.replicate 1023 97) = true := rfl
  constructor
  · rw [grep_eq, hlines, List.takeWhile_cons_of_neg (by rw [List.length_replicate]; decide)]
    · rfl
    · intro h
      rcases List.mem_append.mp h with h | h
      · exact absurd (List.eq_of_mem_replicate h) (by decide)
      · exact absurd h (by decide)
  · rw [hlines, selected_cons, hmatch, if_pos rfl]
    exact List.append_nil _

end Xv6.Grep
