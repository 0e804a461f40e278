import Mathlib.Computability.Language

/-!
# The regexp matcher of `user/grep.c`

`match`, `matchhere` and `matchstar`; a string is the list of its bytes before the NUL, and `re + 1` is the
tail of the list. The meaning of a pattern is a language: `lang` is the product of the languages of its
items, a character, `.`, or one of these with a star. `matchRe_iff` says which texts `match` accepts.
-/

namespace Xv6.Grep

/-- `'^'`, `'.'`, `'*'` and `'$'`. -/
def caret : UInt8 := 94
def dot : UInt8 := 46
def star : UInt8 := 42
def dollar : UInt8 := 36

/-! ## The code -/

/-- `matchstar`: search for `c*re` at the beginning of the text; `here` is `matchhere re`. -/
def matchstar (here : List UInt8 → Bool) (c : UInt8) : List UInt8 → Bool
  | [] => here []
  | t :: text => here (t :: text) || ((t == c || c == dot) && matchstar here c text)

/-- `matchhere`: search for `re` at the beginning of the text. -/
def matchhere : List UInt8 → List UInt8 → Bool
  | [], _ => true
  | [c], text =>
    if c = dollar then text.isEmpty
    else
      match text with
      | [] => false
      | t :: _ => c == dot || c == t
  | c :: d :: re, text =>
    if d = star then matchstar (matchhere re) c text
    else
      match text with
      | [] => false
      | t :: text => (c == dot || c == t) && matchhere (d :: re) text

/-- The loop of `match`. -/
def matchFrom (re : List UInt8) : List UInt8 → Bool
  | [] => matchhere re []
  | t :: text => matchhere re (t :: text) || matchFrom re text

/-- `match`. -/
def matchRe (re text : List UInt8) : Bool :=
  match re with
  | [] => matchFrom [] text
  | c :: re => if c = caret then matchhere re text else matchFrom (c :: re) text

/-! ## The meaning of a pattern -/

/-- A part of a pattern. -/
inductive Item where
  | one (c : UInt8)
  | star (c : UInt8)

/-- The parts of a pattern, from left to right. -/
def items : List UInt8 → List Item
  | [] => []
  | [c] => [.one c]
  | c :: d :: re => if d = star then .star c :: items re else .one c :: items (d :: re)

/-- The words of one character that `c` stands for. -/
def charLang (c : UInt8) : Language UInt8 := {w | ∃ x, w = [x] ∧ (c = dot ∨ c = x)}

/-- The words that a part stands for. -/
def Item.lang : Item → Language UInt8
  | .one c => charLang c
  | .star c => KStar.kstar (charLang c)

/-- The words that a pattern without anchors stands for. -/
def lang (re : List UInt8) : Language UInt8 := ((items re).map Item.lang).prod

/-- The pattern starts with the anchor `^`. -/
def fromStart (re : List UInt8) : Bool := re.head? == some caret

/-- The pattern without the anchor at its start. -/
def rest (re : List UInt8) : List UInt8 := if fromStart re then re.tail else re

/-- The pattern ends with the anchor `$`. -/
def toEnd (re : List UInt8) : Bool := re.getLast? == some dollar

/-- The pattern without the anchor at its end. -/
def body (re : List UInt8) : List UInt8 := if toEnd re then re.dropLast else re

/-! ## Correctness -/

section Lang

variable {c x : UInt8} {re u v w text : List UInt8} {L : Language UInt8}

theorem mem_charLang_mul : w ∈ charLang c * L ↔ ∃ x v, w = x :: v ∧ (c = dot ∨ c = x) ∧ v ∈ L := by
  rw [Language.mem_mul]
  constructor
  · rintro ⟨u, ⟨x, rfl, hx⟩, v, hv, rfl⟩
    exact ⟨x, v, rfl, hx, hv⟩
  · rintro ⟨x, v, rfl, hx, hv⟩
    exact ⟨[x], ⟨x, rfl, hx⟩, v, hv, rfl⟩

/-- A starred character followed by `L`: nothing, or one more character. -/
theorem mem_kstar_mul : w ∈ KStar.kstar (charLang c) * L ↔
    w ∈ L ∨ ∃ x v, w = x :: v ∧ (c = dot ∨ c = x) ∧ v ∈ KStar.kstar (charLang c) * L := by
  have hunfold : KStar.kstar (charLang c) * L = L + charLang c * (KStar.kstar (charLang c) * L) := by
    conv_lhs => rw [← Language.one_add_self_mul_kstar_eq_kstar]
    rw [add_mul, one_mul, mul_assoc]
  conv_lhs => rw [hunfold]
  rw [Language.mem_add, mem_charLang_mul]

/-- The text begins with a word of `L`, which is all of it if `e` is set. -/
def Begins (L : Language UInt8) (e : Bool) (text : List UInt8) : Prop :=
  ∃ mid post, text = mid ++ post ∧ (e = true → post = []) ∧ mid ∈ L

variable {e : Bool}

theorem begins_one : Begins 1 e text ↔ (e = true → text = []) := by
  constructor
  · rintro ⟨mid, post, rfl, he, hmid⟩ h
    rw [Language.mem_one] at hmid
    rw [hmid, he h]
    rfl
  · intro h
    exact ⟨[], text, rfl, h, Language.nil_mem_one⟩

theorem begins_charLang : Begins (charLang c * L) e text ↔
    ∃ t rest, text = t :: rest ∧ (c = dot ∨ c = t) ∧ Begins L e rest := by
  constructor
  · rintro ⟨mid, post, rfl, he, hmid⟩
    obtain ⟨t, v, rfl, hc, hv⟩ := mem_charLang_mul.mp hmid
    exact ⟨t, v ++ post, rfl, hc, v, post, rfl, he, hv⟩
  · rintro ⟨t, rest, rfl, hc, mid, post, rfl, he, hmid⟩
    exact ⟨t :: mid, post, rfl, he, mem_charLang_mul.mpr ⟨t, mid, rfl, hc, hmid⟩⟩

theorem begins_kstar : Begins (KStar.kstar (charLang c) * L) e text ↔ Begins L e text ∨
    ∃ t rest, text = t :: rest ∧ (c = dot ∨ c = t) ∧ Begins (KStar.kstar (charLang c) * L) e rest := by
  constructor
  · rintro ⟨mid, post, rfl, he, hmid⟩
    rcases mem_kstar_mul.mp hmid with hmid | ⟨t, v, rfl, hc, hv⟩
    · exact .inl ⟨mid, post, rfl, he, hmid⟩
    · exact .inr ⟨t, v ++ post, rfl, hc, v, post, rfl, he, hv⟩
  · rintro (⟨mid, post, rfl, he, hmid⟩ | ⟨t, rest, rfl, hc, mid, post, rfl, he, hmid⟩)
    · exact ⟨mid, post, rfl, he, mem_kstar_mul.mpr (.inl hmid)⟩
    · exact ⟨t :: mid, post, rfl, he, mem_kstar_mul.mpr (.inr ⟨t, mid, rfl, hc, hmid⟩)⟩

end Lang

section Match

variable {c d : UInt8} {re text : List UInt8} {e : Bool} {L : Language UInt8}

/-- `matchstar`, from what its `matchhere` does. -/
theorem matchstar_iff {here : List UInt8 → Bool} (h : ∀ text, here text = true ↔ Begins L e text)
    (text : List UInt8) : matchstar here c text = true ↔ Begins (KStar.kstar (charLang c) * L) e text := by
  induction text with
  | nil =>
    rw [matchstar, h, begins_kstar]
    simp
  | cons t text ih =>
    rw [matchstar, begins_kstar, Bool.or_eq_true, h, Bool.and_eq_true, ih]
    simp only [Bool.or_eq_true, beq_iff_eq, List.cons.injEq]
    refine or_congr_right ⟨?_, ?_⟩
    · rintro ⟨hc, hb⟩
      exact ⟨t, text, ⟨rfl, rfl⟩, hc.symm.imp_right Eq.symm, hb⟩
    · rintro ⟨_, _, ⟨rfl, rfl⟩, hc, hb⟩
      exact ⟨hc.symm.imp_left Eq.symm, hb⟩

theorem toEnd_cons_cons : toEnd (c :: d :: re) = toEnd (d :: re) := by
  simp [toEnd]

theorem body_cons_cons : body (c :: d :: re) = c :: body (d :: re) := by
  unfold body
  rw [toEnd_cons_cons]
  split <;> rfl

/-- A star is not the anchor, so the rest of the pattern can be read without it. -/
theorem body_star : body (c :: star :: re) = c :: star :: body re ∧ toEnd (c :: star :: re) = toEnd re := by
  cases re with
  | nil => exact ⟨rfl, rfl⟩
  | cons x re =>
    refine ⟨?_, ?_⟩
    · rw [body_cons_cons, body_cons_cons]
    · rw [toEnd_cons_cons, toEnd_cons_cons]

theorem lang_nil : lang [] = 1 := rfl

theorem lang_star : lang (c :: star :: re) = KStar.kstar (charLang c) * lang re := by
  rw [lang, items, if_pos rfl]
  rfl

theorem lang_cons (h : re.head? ≠ some star) : lang (c :: re) = charLang c * lang re := by
  cases re with
  | nil => simp [lang, items, Item.lang]
  | cons d re =>
    have hd : d ≠ star := fun hd => h (by rw [hd]; rfl)
    rw [lang, items, if_neg hd]
    rfl

theorem head?_body (h : re.head? ≠ some star) : (body re).head? ≠ some star := by
  cases re with
  | nil => exact h
  | cons c re =>
    cases re with
    | nil =>
      unfold body
      split
      · exact nofun
      · exact h
    | cons d re =>
      rw [body_cons_cons]
      exact h

/-- One character that is not the anchor. -/
theorem begins_char {p : List UInt8 → Bool} (h : ∀ text, p text = true ↔ Begins L e text) :
    (match text with
      | [] => false
      | t :: text => (c == dot || c == t) && p text) = true ↔ Begins (charLang c * L) e text := by
  rw [begins_charLang]
  cases text with
  | nil => simp
  | cons t text => simp [h]

/-- `matchhere` accepts the texts that begin with a word of the pattern. -/
theorem matchhere_iff : ∀ re text, matchhere re text = true ↔ Begins (lang (body re)) (toEnd re) text
  | [], text => by
    unfold matchhere
    exact ⟨fun _ => begins_one.mpr nofun, fun _ => rfl⟩
  | [c], text => by
    unfold matchhere
    split
    · rename_i hc
      subst hc
      have hb : body [dollar] = [] := rfl
      rw [hb, lang_nil, begins_one]
      simp [toEnd]
    · rename_i hc
      have he : toEnd [c] = false := by simp [toEnd, hc]
      have hb : body [c] = [c] := by simp [body, he]
      have hone : ∀ text, (fun _ => true) text = true ↔ Begins 1 false text := by
        intro text
        rw [begins_one]
        simp
      rw [hb, he, lang_cons (by simp), lang_nil, ← begins_char hone]
      cases text <;> simp
  | c :: d :: re, text => by
    unfold matchhere
    split
    · rename_i hd
      subst hd
      rw [body_star.1, body_star.2, lang_star]
      exact matchstar_iff (matchhere_iff re) text
    · rename_i hd
      have hne : (body (d :: re)).head? ≠ some star := head?_body (by simpa using hd)
      rw [body_cons_cons, toEnd_cons_cons, lang_cons hne]
      exact begins_char (matchhere_iff (d :: re))

/-- The loop of `match` finds a place where the rest of the text begins with a word of the pattern. -/
theorem matchFrom_iff (re text : List UInt8) :
    matchFrom re text = true ↔ ∃ pre rest, text = pre ++ rest ∧ Begins (lang (body re)) (toEnd re) rest := by
  induction text with
  | nil =>
    rw [matchFrom, matchhere_iff]
    constructor
    · intro h
      exact ⟨[], [], rfl, h⟩
    · rintro ⟨pre, rest, h, hb⟩
      rw [(List.append_eq_nil_iff.mp h.symm).2] at hb
      exact hb
  | cons t text ih =>
    rw [matchFrom, Bool.or_eq_true, matchhere_iff, ih]
    constructor
    · rintro (h | ⟨pre, rest, rfl, h⟩)
      · exact ⟨[], t :: text, rfl, h⟩
      · exact ⟨t :: pre, rest, rfl, h⟩
    · rintro ⟨pre, rest, h, hb⟩
      cases pre with
      | nil =>
        rw [List.nil_append] at h
        rw [h]
        exact .inl hb
      | cons x pre =>
        obtain ⟨rfl, rfl⟩ := List.cons.inj h
        exact .inr ⟨pre, rest, rfl, hb⟩

/-- **The matcher is correct.** `match` accepts a text exactly if some part of it is a word of the pattern
without its anchors: a part at the beginning if the pattern starts with `^`, a part at the end if it ends
with `$`. -/
theorem matchRe_iff (re text : List UInt8) : matchRe re text = true ↔
    ∃ pre mid post, text = pre ++ mid ++ post ∧ (fromStart re = true → pre = []) ∧
      (toEnd (rest re) = true → post = []) ∧ mid ∈ lang (body (rest re)) := by
  have hfrom : ∀ re, matchFrom re text = true ↔ ∃ pre mid post, text = pre ++ mid ++ post ∧
      (toEnd re = true → post = []) ∧ mid ∈ lang (body re) := by
    intro re
    rw [matchFrom_iff]
    constructor
    · rintro ⟨pre, _, rfl, mid, post, rfl, he, hmid⟩
      exact ⟨pre, mid, post, (List.append_assoc ..).symm, he, hmid⟩
    · rintro ⟨pre, mid, post, rfl, he, hmid⟩
      exact ⟨pre, mid ++ post, List.append_assoc .., mid, post, rfl, he, hmid⟩
  unfold matchRe
  split
  · rw [hfrom]
    simp [fromStart, rest]
  · rename_i c re
    split
    · rename_i hc
      have hs : fromStart (c :: re) = true := by simp [fromStart, hc]
      have hr : rest (c :: re) = re := by simp [rest, hs]
      rw [matchhere_iff, hr]
      constructor
      · rintro ⟨mid, post, rfl, he, hmid⟩
        exact ⟨[], mid, post, rfl, fun _ => rfl, he, hmid⟩
      · rintro ⟨pre, mid, post, rfl, hpre, he, hmid⟩
        rw [hpre hs]
        exact ⟨mid, post, rfl, he, hmid⟩
    · rename_i hc
      have hs : fromStart (c :: re) = false := by simp [fromStart, hc]
      have hr : rest (c :: re) = c :: re := by simp [rest, hs]
      rw [hfrom, hr, hs]
      simp

/-- `^ab*$` and `a.c`. -/
example : matchRe [94, 97, 98, 42, 36] [97, 98, 98] = true ∧ matchRe [97, 46, 99] [120, 97, 98, 99, 100] = true ∧
    matchRe [94, 98] [97, 98] = false := by decide

end Match

end Xv6.Grep
