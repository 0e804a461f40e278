import Mathlib.Data.BitVec
import Mathlib.Data.List.TakeWhile

/-!
# `sixfive`

`sixfive` (`user/sixfive.c`) reads a file byte by byte, collects what stands between separators in `num_buf[16]` and
gives it to `atoi`. The trace of a run is its `read`s and its output in their order, so it tells for which word
something was printed and how far the file was read. It is the right one exactly if all words of the file are such that
`atoi` does not matter (`sixfive_right_iff`): other words count as the number that they start with, which is 0 for most.
-/

namespace Xv6.Ulib

/-- The separators `" -\r\t\n./,"`; `strchr` does not find the NUL at the end. -/
def separators : List UInt8 := [32, 45, 13, 9, 10, 46, 47, 44]

def isSep (c : UInt8) : Bool := separators.contains c

def isDigit (c : UInt8) : Bool := 48 ≤ c && c ≤ 57

/-- `atoi`; the NUL that ends the string is not in the list. -/
def atoi : BitVec 32 → List UInt8 → BitVec 32
  | n, [] => n
  | n, c :: s => if isDigit c then atoi (n * 10 + BitVec.ofNat 32 c.toNat - 48) s else n

/-- What `sixfive` does to the outside. -/
inductive Ev where
  /-- `read` of one byte, or of none at the end of the file. -/
  | read (c : Option UInt8)
  /-- `fprintf(1, "%d\n", num)`. -/
  | print (num : Int)
  /-- `fprintf(2, "Number too large in file %s\n", argv[i])`. -/
  | tooLarge
  deriving DecidableEq, Repr

/-- The number of the word in `num_buf` is printed if it is divisible by 5 or 6. -/
def report (numBuf : List UInt8) : List Ev :=
  let num := (atoi 0 numBuf).toInt
  if num.tmod 5 = 0 ∨ num.tmod 6 = 0 then [.print num] else []

/-- The loop over the bytes of the file, and the rest of the buffer at its end. -/
def scan : List UInt8 → List UInt8 → List Ev
  | numBuf, [] => .read none :: if numBuf.length > 0 then report numBuf else []
  | numBuf, c :: file =>
    .read (some c) ::
      if isSep c then
        if numBuf.length > 0 then report numBuf ++ scan [] file else scan numBuf file
      else if numBuf.length < 15 then scan (numBuf ++ [c]) file
      else [.tooLarge]

/-- `sixfive` for one file. -/
def sixfive (file : List UInt8) : List Ev := scan [] file

/-! ## What it should do -/

/-- The value of a word of digits. -/
def value (w : List UInt8) : Nat := w.foldl (fun n c => n * 10 + (c.toNat - 48)) 0

/-- The value of a word that has to be printed. -/
def wordVal (w : List UInt8) : Option Nat :=
  if w ≠ [] ∧ w.all isDigit = true ∧ (5 ∣ value w ∨ 6 ∣ value w) then some (value w) else none

/-- What has to be printed for a word. -/
def wordOut (w : List UInt8) : List Ev := (wordVal w).toList.map fun n => .print n

/-- The words of the file, the first with `w` before it. -/
def words : List UInt8 → List UInt8 → List (List UInt8)
  | w, [] => [w]
  | w, c :: file => if isSep c then w :: words [] file else words (w ++ [c]) file

/-- The file is read to its end, and each word is answered at its end. -/
def rightFrom : List UInt8 → List UInt8 → List Ev
  | w, [] => .read none :: wordOut w
  | w, c :: file =>
    .read (some c) :: if isSep c then wordOut w ++ rightFrom [] file else rightFrom (w ++ [c]) file

/-- The trace of a run of `sixfive` that does what it should. -/
def right (file : List UInt8) : List Ev := rightFrom [] file

/-- What is printed. -/
def printed (t : List Ev) : List Int :=
  t.filterMap fun
    | .print n => some n
    | _ => none

/-- The number that a word starts with, as an `int`. -/
def leadNum (w : List UInt8) : Int := (BitVec.ofNat 32 (value (w.takeWhile isDigit))).toInt

/-- The words for which `atoi` does no harm: they fit in the buffer, and what is printed for the number that they start
with is what is to be printed. -/
def WordOk (w : List UInt8) : Prop :=
  w.length ≤ 15 ∧
    if w.all isDigit then value w < 2 ^ 31 ∨ (¬ (5 ∣ value w ∨ 6 ∣ value w) ∧ ¬ (5 ∣ leadNum w ∨ 6 ∣ leadNum w))
    else ¬ (5 ∣ leadNum w ∨ 6 ∣ leadNum w)

/-! ## `atoi` -/

theorem atoi_eq (n : Nat) (s : List UInt8) : atoi (BitVec.ofNat 32 n) s =
    BitVec.ofNat 32 ((s.takeWhile isDigit).foldl (fun n c => n * 10 + (c.toNat - 48)) n) := by
  induction s generalizing n with
  | nil => rfl
  | cons c s ih =>
    rw [atoi, List.takeWhile_cons]
    by_cases hc : isDigit c = true
    · rw [if_pos hc, if_pos hc, List.foldl_cons, ← ih]
      congr 1
      have h48 : 48 ≤ c.toNat := by
        have := (Bool.and_eq_true _ _ ▸ hc : _ ∧ _).1
        exact UInt8.le_iff_toNat_le.mp (of_decide_eq_true this)
      apply BitVec.eq_of_toNat_eq
      simp
      omega
    · rw [if_neg hc, if_neg hc]
      rfl

theorem atoi_leadNum (w : List UInt8) : (atoi 0 w).toInt = leadNum w := by
  unfold leadNum value
  rw [← atoi_eq]
  rfl

variable {w file : List UInt8} {c d : Option UInt8} {t u : List Ev}

theorem takeWhile_of_all (h : w.all isDigit = true) : w.takeWhile isDigit = w :=
  List.takeWhile_eq_self_iff.mpr (List.all_eq_true.mp h)

/-- A number below `2 ^ 31` is read exactly. -/
theorem leadNum_of_lt (h : w.all isDigit = true) (hlt : value w < 2 ^ 31) : leadNum w = value w := by
  unfold leadNum
  rw [takeWhile_of_all h, BitVec.toInt_eq_toNat_of_lt (by simp; omega), BitVec.toNat_ofNat, Nat.mod_eq_of_lt (by omega)]

theorem leadNum_lt (w : List UInt8) : leadNum w < 2 ^ 31 := BitVec.toInt_lt

theorem report_eq (w : List UInt8) : report w = if 5 ∣ leadNum w ∨ 6 ∣ leadNum w then [.print (leadNum w)] else [] := by
  unfold report
  simp only [atoi_leadNum, Int.dvd_iff_tmod_eq_zero]

/-- What is printed for a word is right. -/
theorem report_eq_wordOut_iff (hne : w ≠ []) (hlen : w.length ≤ 15) : report w = wordOut w ↔ WordOk w := by
  have hdvd : ∀ k : Nat, ((k : Int) ∣ (value w : Int)) ↔ k ∣ value w := fun k => Int.natCast_dvd_natCast
  have h5 := hdvd 5
  have h6 := hdvd 6
  have hlt := leadNum_lt w
  rw [report_eq]
  unfold WordOk wordOut wordVal
  by_cases hall : w.all isDigit = true
  · simp only [hall, hne, hlen, ne_eq, not_false_eq_true, true_and, if_true]
    by_cases hv : value w < 2 ^ 31
    · have hv' : value w < 2147483648 := hv
      rw [leadNum_of_lt hall hv]
      by_cases hm : 5 ∣ value w ∨ 6 ∣ value w
      · simp [hv', hm, show (5 : Int) ∣ value w ∨ (6 : Int) ∣ value w from hm.imp h5.mpr h6.mpr]
      · simp [hv', hm, show ¬ ((5 : Int) ∣ value w ∨ (6 : Int) ∣ value w) from fun h => hm (h.imp h5.mp h6.mp)]
    · -- the number that is printed is not the value
      have hne' : leadNum w ≠ value w := by omega
      have hv' : ¬ value w < 2147483648 := hv
      by_cases hm : 5 ∣ value w ∨ 6 ∣ value w <;> by_cases hn : 5 ∣ leadNum w ∨ 6 ∣ leadNum w <;>
        simp [hv', hm, hn, hne']
  · by_cases hn : 5 ∣ leadNum w ∨ 6 ∣ leadNum w <;> simp [hall, hlen, hn]

/-! ## The scan -/

theorem scan_head (w file : List UInt8) : ∃ c t, scan w file = .read c :: t := by
  cases file with
  | nil => exact ⟨none, _, rfl⟩
  | cons c file => exact ⟨some c, _, rfl⟩

theorem rightFrom_head (w file : List UInt8) : ∃ c t, rightFrom w file = .read c :: t := by
  cases file with
  | nil => exact ⟨none, _, rfl⟩
  | cons c file => exact ⟨some c, _, rfl⟩

/-- Output before a `read` can be told from the rest. -/
theorem print_append_iff {m n : Option Int} :
    m.toList.map Ev.print ++ .read c :: t = n.toList.map Ev.print ++ .read d :: u ↔
      m = n ∧ .read c :: t = Ev.read d :: u := by
  cases m <;> cases n <;> simp

theorem exists_prefix (w file : List UInt8) : ∃ w' ∈ words w file, w <+: w' := by
  induction file generalizing w with
  | nil => exact ⟨w, List.mem_singleton_self w, List.prefix_refl w⟩
  | cons c file ih =>
    rw [words]
    split
    · exact ⟨w, List.mem_cons_self, List.prefix_refl w⟩
    · obtain ⟨w', hw', hp⟩ := ih (w ++ [c])
      exact ⟨w', hw', (List.prefix_append w [c]).trans hp⟩

theorem report_prints (w : List UInt8) : ∃ m : Option Int, report w = m.toList.map Ev.print := by
  rw [report_eq]
  split
  · exact ⟨some _, rfl⟩
  · exact ⟨none, rfl⟩

theorem wordOut_prints (w : List UInt8) : ∃ m : Option Int, wordOut w = m.toList.map Ev.print := by
  unfold wordOut
  cases wordVal w with
  | none => exact ⟨none, rfl⟩
  | some n => exact ⟨some n, rfl⟩

theorem wordOk_nil : WordOk [] := ⟨by decide, .inl (by decide)⟩

/-- The output for a word and what follows. -/
theorem answer_iff (hlen : w.length ≤ 15) :
    (if w.length > 0 then report w else []) ++ Ev.read c :: t = wordOut w ++ Ev.read d :: u ↔
      WordOk w ∧ Ev.read c :: t = Ev.read d :: u := by
  by_cases hw : w = []
  · subst hw
    simp [wordOk_nil, wordOut, wordVal]
  · rw [if_pos (List.length_pos_iff.mpr hw), ← report_eq_wordOut_iff hw hlen]
    obtain ⟨m, hm⟩ := report_prints w
    obtain ⟨n, hn⟩ := wordOut_prints w
    rw [hm, hn, print_append_iff]
    refine and_congr_left fun _ => ⟨fun h => by rw [h], fun h => ?_⟩
    cases m <;> cases n <;> simp at h ⊢
    exact h

theorem scan_eq_iff (hlen : w.length ≤ 15) : scan w file = rightFrom w file ↔ ∀ w' ∈ words w file, WordOk w' := by
  induction file generalizing w with
  | nil =>
    have h := answer_iff (c := none) (d := none) (t := []) (u := []) hlen
    simp only [and_true, List.append_cancel_right_eq] at h
    simp only [scan, rightFrom, words, List.cons.injEq, true_and, List.mem_singleton, forall_eq]
    exact h
  | cons c file ih =>
    simp only [scan, rightFrom, words, List.cons.injEq, true_and]
    by_cases hc : isSep c = true
    · obtain ⟨c₁, t₁, e₁⟩ := scan_head [] file
      obtain ⟨c₂, t₂, e₂⟩ := rightFrom_head [] file
      have hscan : (if w.length > 0 then report w ++ scan [] file else scan w file) =
          (if w.length > 0 then report w else []) ++ scan [] file := by
        split
        · rfl
        · rw [List.length_eq_zero_iff.mp (by omega : w.length = 0)]
          rfl
      simp only [if_pos hc, List.forall_mem_cons]
      rw [hscan, ← ih (Nat.zero_le _), e₁, e₂]
      exact answer_iff hlen
    · simp only [if_neg hc]
      by_cases hfull : w.length < 15
      · rw [if_pos hfull]
        exact ih (by rw [List.length_append, List.length_singleton]; omega)
      · -- the word is too long, and the scan stops
        rw [if_neg hfull]
        obtain ⟨c₂, t₂, e₂⟩ := rightFrom_head (w ++ [c]) file
        rw [e₂]
        refine iff_of_false (by simp) fun h => ?_
        obtain ⟨w', hw', hp⟩ := exists_prefix (w ++ [c]) file
        have := (h w' hw').1
        have := hp.length_le
        rw [List.length_append, List.length_singleton] at this
        omega

theorem words_eq (hw : ∀ c ∈ w, isSep c = false) : words w file = (w ++ file).splitOnP isSep := by
  induction file generalizing w with
  | nil => rw [words, List.append_nil, List.splitOnP_eq_singleton hw]
  | cons c file ih =>
    rw [words]
    by_cases hc : isSep c = true
    · rw [if_pos hc, List.splitOnP_append_cons_of_forall_mem hw c hc, ih (by simp)]
      rfl
    · rw [if_neg hc, ih fun d hd => ?_, List.append_assoc]
      · rfl
      · rcases List.mem_append.mp hd with hd | hd
        · exact hw d hd
        · rw [List.mem_singleton.mp hd]
          exact Bool.eq_false_of_not_eq_true hc

theorem printed_rightFrom (w file : List UInt8) :
    printed (rightFrom w file) = (words w file).filterMap fun w => (wordVal w).map Int.ofNat := by
  have hout : ∀ w t, printed (wordOut w ++ t) = ((wordVal w).map Int.ofNat).toList ++ printed t := by
    intro w t
    unfold wordOut printed
    cases wordVal w <;> simp
  induction file generalizing w with
  | nil =>
    have h := hout w []
    rw [List.append_nil] at h
    show printed (wordOut w) = _
    rw [h]
    cases hv : wordVal w <;> simp [words, hv, printed]
  | cons c file ih =>
    show printed (if isSep c then wordOut w ++ rightFrom [] file else rightFrom (w ++ [c]) file) = _
    rw [words]
    split
    · rw [hout, ih]
      cases hv : wordVal w <;> simp [hv]
    · exact ih _

/-- The trace of `sixfive` is the right one if and only if each word of the file fits in the buffer and is a number
below `2 ^ 31`, or does not lead to output for another reason; the right one prints the values of the words of digits
that are divisible by 5 or 6. -/
theorem sixfive_right_iff (file : List UInt8) :
    (sixfive file = right file ↔ ∀ w ∈ file.splitOnP isSep, WordOk w) ∧
      printed (right file) = (file.splitOnP isSep).filterMap fun w => (wordVal w).map Int.ofNat := by
  have hw : words [] file = file.splitOnP isSep := words_eq (by simp)
  rw [← hw]
  exact ⟨scan_eq_iff (Nat.zero_le _), printed_rightFrom [] file⟩

/-- For `abc` a 0 is printed. -/
theorem sixfive_abc : sixfive [97, 98, 99] ≠ right [97, 98, 99] ∧ printed (sixfive [97, 98, 99]) = [0] ∧
    printed (right [97, 98, 99]) = [] := by decide

end Xv6.Ulib
