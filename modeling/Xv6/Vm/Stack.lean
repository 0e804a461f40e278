import Xv6.Vm.Load

/-!
# The stack that `kexec` builds

The strings go on the stack one after the other, then the array of their addresses; each time the stack pointer is
rounded down to 16 bytes. The stack ends at a page, so this is the same as to round each size up (`stackSpace`).
`pushArgs` gets through if that fits above `stackbase`, and the strings are at `argAddr`.
-/

namespace Xv6

open Seq

/-! ## The layout -/

/-- A number of bytes, rounded up to the alignment of the stack. -/
def round16 (n : Nat) : Nat := (n + 15) / 16 * 16

/-- What the strings take on the stack. -/
def argSpace (argv : List (List UInt8)) : Nat := (argv.map fun arg => round16 (arg.length + 1)).sum

/-- What the strings and the array of their addresses take on the stack. -/
def stackSpace (argv : List (List UInt8)) : Nat := argSpace argv + round16 ((argv.length + 1) * 8)

/-- The address of string `i`, on a stack that ends at `top`. -/
def argAddr (top : Nat) (argv : List (List UInt8)) (i : Nat) : Nat := top - argSpace (argv.take (i + 1))

/-- The addresses of the strings. -/
def argAddrs (top : Nat) (argv : List (List UInt8)) : List Nat := (List.range argv.length).map (argAddr top argv)

section

variable {top i : Nat} {argv args : List (List UInt8)} {arg : List UInt8}

theorem round16_le {n : Nat} : n ≤ round16 n := by
  unfold round16
  omega

theorem argSpace_append : argSpace (argv ++ args) = argSpace argv + argSpace args := by simp [argSpace]

theorem argSpace_singleton : argSpace [arg] = round16 (arg.length + 1) := by simp [argSpace]

theorem argSpace_mod : argSpace argv % 16 = 0 := by
  induction argv with
  | nil => rfl
  | cons arg argv ih =>
    rw [← List.singleton_append, argSpace_append, argSpace_singleton]
    unfold round16
    omega

theorem argSpace_take_le : argSpace (argv.take i) ≤ argSpace argv := by
  conv_rhs => rw [← List.take_append_drop i argv, argSpace_append]
  omega

/-- The strings that are there already stay where they are. -/
theorem argAddr_append (hi : i < argv.length) : argAddr top (argv ++ args) i = argAddr top argv i := by
  unfold argAddr
  rw [List.take_append_of_le_length hi]

theorem argAddr_last : argAddr top (argv ++ [arg]) argv.length = top - argSpace argv - round16 (arg.length + 1) := by
  unfold argAddr
  rw [List.take_of_length_le (by simp), argSpace_append, argSpace_singleton, Nat.sub_sub]

theorem argAddrs_snoc : argAddrs top (argv ++ [arg]) =
    argAddrs top argv ++ [top - argSpace argv - round16 (arg.length + 1)] := by
  unfold argAddrs
  rw [List.length_append, List.length_singleton, List.range_succ, List.map_append, List.map_singleton, argAddr_last]
  congr 1
  exact List.map_congr_left fun i hi => argAddr_append (List.mem_range.mp hi)

theorem argAddrs_length : (argAddrs top argv).length = argv.length := by simp [argAddrs]

theorem subU64_of_le {a n : Nat} (h : n ≤ a) (ha : a < U64) : subU64 a n = a - n := by
  unfold subU64
  rw [show a + U64 - n = a - n + U64 by omega, Nat.add_mod_right, Nat.mod_eq_of_lt (by omega)]

/-- A push of `n` bytes with the stack pointer aligned before and after. -/
theorem push_eq (sp n : Nat) (hn : n ≤ sp) (hsp : sp < U64) (h16 : sp % 16 = 0) :
    subU64 sp n - subU64 sp n % 16 = sp - round16 n ∧ round16 n ≤ sp := by
  rw [subU64_of_le hn hsp]
  unfold round16
  omega

/-- One more string. -/
theorem argSpace_take_succ (h : argv[i]? = some arg) :
    argSpace (argv.take (i + 1)) = argSpace (argv.take i) + round16 (arg.length + 1) := by
  rw [List.take_add_one, h, argSpace_append, Option.toList_some, argSpace_singleton]

/-- A string lies below the strings before it, and not below the stack pointer. -/
theorem argAddr_range (h : argv[i]? = some arg) (ht : argSpace argv ≤ top) :
    top - argSpace argv ≤ argAddr top argv i ∧
      argAddr top argv i + (arg.length + 1) ≤ top - argSpace (argv.take i) := by
  have h1 := argSpace_take_succ h
  have h2 : argSpace (argv.take (i + 1)) ≤ argSpace argv := argSpace_take_le
  have h3 := round16_le (n := arg.length + 1)
  unfold argAddr
  omega

theorem leBytes_length (n : Nat) (x : Int) : (leBytes n x).length = n := by simp [leBytes]

theorem flatMap_leBytes_length (l : List Nat) : (l.flatMap fun a : Nat => leBytes 8 a).length = l.length * 8 := by
  simp [List.length_flatMap, leBytes_length]

/-- The bytes of one word of an array. -/
theorem flatMap_leBytes_get {l : List Nat} {a : Nat} (h : l[i]? = some a) :
    ((l.flatMap fun a : Nat => leBytes 8 a).drop (8 * i)).take 8 = leBytes 8 a := by
  induction l generalizing i with
  | nil => cases h
  | cons b l ih =>
    rw [List.flatMap_cons]
    cases i with
    | zero =>
      obtain rfl : b = a := by simpa using h
      rw [Nat.mul_zero, List.drop_zero, List.take_append_of_le_length (by rw [leBytes_length]),
        List.take_of_length_le (by rw [leBytes_length])]
    | succ i =>
      have hd : 8 * (i + 1) = (leBytes 8 (b : Int)).length + 8 * i := by
        rw [leBytes_length]
        ring
      rw [hd, List.drop_length_add_append]
      exact ih h

end

section

variable [K : Layout] {E : Panic → Prop} {k k₀ k' : Kmem} {own own₀ : Nat → Owner}
variable {T : Nat → Option (Nat → Nat)} {r q tf sz : Nat} {L : Nat → Nat}

/-! ## `copyout` to pages of the new table -/

/-- The pages from address `a` to address `b` are mapped for the user, who may write them. -/
def Writable (L : Nat → Nat) (a b : Nat) : Prop :=
  ∀ v, a / PGSIZE ≤ v → v * PGSIZE < b → pteU (L v) = true ∧ pteW (L v) = true

variable {a psz ppt top : Nat} {src : List UInt8} {argv : List (List UInt8)}

omit K in
theorem Writable.mono {b a' b' : Nat} (h : Writable L a b) (ha : a ≤ a') (hb : b' ≤ b) : Writable L a' b' :=
  fun v h1 h2 => h v ((Nat.div_le_div_right ha).trans h1) (h2.trans_le hb)

theorem copyoutLoop_filling {fuel : Nat} (h : Filling k₀ own₀ T r tf sz k own L)
    (hw : Writable L a (a + src.length)) (hf : src.length ≤ fuel) :
    wp E (copyoutLoop psz ppt r fuel a src) k fun ok k' => ok = true ∧ Filling k₀ own₀ T r tf sz k' own L ∧
      ∀ b, b / PGSIZE < NUSER → ubyte k' L b = overlay (ubyte k L) a src.length src b := by
  induction fuel generalizing k a src with
  | zero =>
    have e : src.length = 0 := by omega
    rw [e]
    exact ⟨rfl, h, fun _ _ => overlay_zero.symm⟩
  | succ fuel ih =>
    unfold copyoutLoop
    by_cases hs : src.length = 0
    · rw [if_pos hs, hs]
      exact ⟨rfl, h, fun _ _ => overlay_zero.symm⟩
    rw [if_neg hs]
    simp only
    obtain ⟨hU, hW⟩ := hw (a / PGSIZE) le_rfl (by have := Nat.div_mul_le_self a PGSIZE; omega)
    have hN : a / PGSIZE < NUSER := by
      by_contra hc
      rw [h.leaves.topOk _ (by omega)] at hU
      cases hU
    have hne : L (a / PGSIZE) ≠ 0 := by
      intro h0
      rw [h0] at hU
      cases hU
    have hmax : pgRoundDown a < MAXVA := by
      unfold pgRoundDown
      simp only [NUSER, PGSIZE, MAXVA] at hN ⊢
      omega
    have hdiv := pgRoundDown_div a
    have hq := h.userOk.own_pte2pa hN hne
    rw [if_neg (by omega)]
    unfold userPage
    rw [wp_bind]
    refine (walkaddr_local h.toLocal hmax).bind ?_
    rintro res k' ⟨rfl, hres⟩
    rw [hdiv, hU, if_pos rfl] at hres
    subst hres
    rw [wp_pure]
    refine (walk_look_local h.toLocal hmax).bind ?_
    rintro res k₁ ⟨rfl, hwalk⟩
    rw [hdiv] at hwalk
    rcases hwalk with ⟨rfl, h0⟩ | ⟨pt, rfl, -, hpte⟩
    · exact absurd h0 hne
    simp only [load]
    rw [wp_bind, wp_gets, hpte, if_neg (by simp [hW]), wp_bind, wp_modify, sub_pgRoundDown, next_page]
    show wp E (copyoutLoop psz ppt r fuel _ (src.drop (chunk a src.length)))
      (k₁.setBytes _ _ (src.take (chunk a src.length))) _
    have hlen : (src.drop (chunk a src.length)).length = src.length - chunk a src.length := List.length_drop
    have htake : (src.take (chunk a src.length)).length = chunk a src.length :=
      List.length_take_of_le (by unfold chunk; omega)
    have hpos := chunk_pos (a := a) hs
    have hrest : Writable L ((a / PGSIZE + 1) * PGSIZE)
        ((a / PGSIZE + 1) * PGSIZE + (src.drop (chunk a src.length)).length) := by
      rw [hlen]
      intro v h1 h2
      rw [mul_pgsize_div] at h1
      refine hw v (by omega) ?_
      by_cases hc : chunk a src.length < src.length
      · rw [← chunk_next hc] at h2
        omega
      · have : (a / PGSIZE + 1) * PGSIZE ≤ v * PGSIZE := Nat.mul_le_mul_right _ h1
        omega
    refine (ih (h.setBytes hq) hrest (by omega)).mono ?_
    rintro ok k' ⟨hok, h', hb⟩
    refine ⟨hok, h', fun b hbN => ?_⟩
    have hthis : ubyte (k₁.setBytes (pte2pa (L (a / PGSIZE))) (a % PGSIZE) (src.take (chunk a src.length))) L b =
        overlay (ubyte k₁ L) a (chunk a src.length) (src.take (chunk a src.length)) b := by
      rw [ubyte_setBytes h.userOk hN hne (by rw [htake]; exact chunk_le) hbN, Nat.div_add_mod' a PGSIZE, htake]
      rfl
    rw [hb b hbN, overlay_congr hthis, hlen, overlay_chunk (by omega)]
    congr 1
    unfold chunk
    omega

/-- `copyout` to pages of the new table that the user may write. -/
theorem copyout_filling (h : Filling k₀ own₀ T r tf sz k own L) (hw : Writable L a (a + src.length)) :
    wp E (copyout psz ppt r a src) k fun ok k' => ok = true ∧ Filling k₀ own₀ T r tf sz k' own L ∧
      ∀ b, b / PGSIZE < NUSER → ubyte k' L b = overlay (ubyte k L) a src.length src b :=
  copyoutLoop_filling h hw le_rfl

/-! ## The strings and the array -/

omit K in
theorem ubytes_part {n i m : Nat} (h : i + m ≤ n) : ubytes k L (a + i) m = ((ubytes k L a n).drop i).take m := by
  obtain ⟨t, rfl⟩ : ∃ t, n = i + (m + t) := ⟨n - (i + m), by omega⟩
  rw [ubytes_add, ubytes_add, List.drop_left' ubytes_length, List.take_left' ubytes_length]

omit K in
/-- The bytes that were stored. -/
theorem ubytes_stored (ha : a + src.length ≤ TRAPFRAME)
    (h : ∀ b, b / PGSIZE < NUSER → ubyte k' L b = overlay (ubyte k L) a src.length src b) :
    ubytes k' L a src.length = src := by
  refine List.ext_getElem (by simp) fun i h1 h2 => ?_
  have hN : (a + i) / PGSIZE < NUSER := by
    simp only [TRAPFRAME, TRAMPOLINE, MAXVA, PGSIZE, NUSER] at ha ⊢
    omega
  simp only [ubytes, List.getElem_map, List.getElem_range]
  rw [h _ hN]
  unfold overlay
  rw [if_pos (by omega), Nat.add_sub_cancel_left, List.getD_eq_getElem?_getD, List.getElem?_eq_getElem h2,
    Option.getD_some]

omit K in
/-- The bytes elsewhere. -/
theorem ubytes_elsewhere {c n : Nat} (hc : c + n ≤ TRAPFRAME) (hd : a + src.length ≤ c ∨ c + n ≤ a)
    (h : ∀ b, b / PGSIZE < NUSER → ubyte k' L b = overlay (ubyte k L) a src.length src b) :
    ubytes k' L c n = ubytes k L c n := by
  refine ubytes_congr fun i hi => ?_
  have hN : (c + i) / PGSIZE < NUSER := by
    simp only [TRAPFRAME, TRAMPOLINE, MAXVA, PGSIZE, NUSER] at hc ⊢
    omega
  rw [h _ hN]
  exact if_neg (by omega)

/-- The strings are on the stack that ends at `top`, with a NUL after each. -/
def StringsAt (k : Kmem) (L : Nat → Nat) (top : Nat) (argv : List (List UInt8)) : Prop :=
  ∀ i arg, argv[i]? = some arg → ubytes k L (argAddr top argv i) (arg.length + 1) = arg ++ [0]

/-- The strings, and below them the array of their addresses with a null pointer at its end. -/
structure StackAt (k : Kmem) (L : Nat → Nat) (top : Nat) (argv : List (List UInt8)) : Prop where
  strings : StringsAt k L top argv
  array : ∀ i (a : Nat), (argAddrs top argv ++ [0])[i]? = some a →
    ubytes k L (top - stackSpace argv + 8 * i) 8 = leBytes 8 a

omit K in
/-- A memory with the same bytes below `top`. -/
theorem StackAt.congr {L' : Nat → Nat} (h : StackAt k L top argv)
    (hs : stackSpace argv ≤ top) (hb : ∀ b < top, ubyte k' L' b = ubyte k L b) : StackAt k' L' top argv := by
  have hr := round16_le (n := (argv.length + 1) * 8)
  unfold stackSpace at hs
  have hs' : argSpace argv ≤ top := by omega
  refine ⟨fun i arg hi => ?_, fun i a hi => ?_⟩
  · obtain ⟨-, h2⟩ := argAddr_range hi hs'
    rw [ubytes_congr fun j hj => hb _ (by omega)]
    exact h.strings i arg hi
  · have hi' : i < argv.length + 1 := by
      have := (List.getElem?_eq_some_iff.mp hi).1
      rwa [List.length_append, argAddrs_length] at this
    rw [ubytes_congr fun j hj => hb _ (by unfold stackSpace; omega)]
    exact h.array i a hi

omit K in
/-- Bytes are stored below the strings. -/
theorem StringsAt.below (h : StringsAt k L top argv)
    (ht : top ≤ TRAPFRAME) (hs : argSpace argv ≤ top) (ha : a + src.length ≤ top - argSpace argv)
    (hb : ∀ b, b / PGSIZE < NUSER → ubyte k' L b = overlay (ubyte k L) a src.length src b) :
    StringsAt k' L top argv := by
  intro i arg hi
  obtain ⟨h1, h2⟩ := argAddr_range hi hs
  rw [ubytes_elsewhere (by omega) (by omega) hb]
  exact h i arg hi

omit K in
/-- One more string is stored. -/
theorem StringsAt.snoc {arg : List UInt8} (h : StringsAt k L top argv)
    (ht : top ≤ TRAPFRAME) (hs : argSpace (argv ++ [arg]) ≤ top)
    (hb : ∀ b, b / PGSIZE < NUSER → ubyte k' L b =
      overlay (ubyte k L) (top - argSpace argv - round16 (arg.length + 1)) (arg ++ [0]).length (arg ++ [0]) b) :
    StringsAt k' L top (argv ++ [arg]) := by
  have hr := round16_le (n := arg.length + 1)
  have hlen : (arg ++ [0]).length = arg.length + 1 := by simp
  rw [argSpace_append, argSpace_singleton] at hs
  intro i a hi
  rcases Nat.lt_or_ge i argv.length with hlt | hge
  · rw [List.getElem?_append_left hlt] at hi
    rw [argAddr_append hlt]
    exact h.below ht (by omega) (by rw [hlen]; omega) hb i a hi
  · rw [List.getElem?_append_right hge] at hi
    obtain ⟨hi', rfl⟩ : i = argv.length ∧ arg = a := by
      cases hx : i - argv.length with
      | zero =>
        rw [hx] at hi
        exact ⟨by omega, by simpa using hi⟩
      | succ n =>
        rw [hx] at hi
        cases hi
    have hst := ubytes_stored (by rw [hlen]; omega) hb
    rwa [hlen, ← argAddr_last, ← hi'] at hst

omit K in
/-- The array is stored. -/
theorem StringsAt.array (h : StringsAt k L top argv) (ht : top ≤ TRAPFRAME) (hs : stackSpace argv ≤ top)
    (hb : ∀ b, b / PGSIZE < NUSER → ubyte k' L b = overlay (ubyte k L) (top - stackSpace argv)
      ((argAddrs top argv ++ [0]).flatMap fun a : Nat => leBytes 8 a).length
      ((argAddrs top argv ++ [0]).flatMap fun a : Nat => leBytes 8 a) b) : StackAt k' L top argv := by
  have hr := round16_le (n := (argv.length + 1) * 8)
  have hlen : ((argAddrs top argv ++ [0]).flatMap fun a : Nat => leBytes 8 a).length = (argv.length + 1) * 8 := by
    rw [flatMap_leBytes_length, List.length_append, argAddrs_length, List.length_singleton]
  unfold stackSpace at hs
  refine ⟨h.below ht (by omega) (by rw [hlen]; unfold stackSpace; omega) hb, fun i a hi => ?_⟩
  have hi' : i < argv.length + 1 := by
    have := (List.getElem?_eq_some_iff.mp hi).1
    rwa [List.length_append, argAddrs_length] at this
  rw [ubytes_part (n := ((argAddrs top argv ++ [0]).flatMap fun a : Nat => leBytes 8 a).length) (by rw [hlen]; omega),
    ubytes_stored (by rw [hlen]; unfold stackSpace; omega) hb, flatMap_leBytes_get hi]

/-- What `pushArgs` does with the strings `args`: it gets through if they and the array fit between `base` and
`top`. -/
structure Pushed (base top : Nat) (args : List (List UInt8)) (k : Kmem) (L : Nat → Nat) (res : Option Nat) (k' : Kmem) :
    Prop where
  below : ∀ b < base, ubyte k' L b = ubyte k L b
  fits : args.length < MAXARG → (res ≠ none ↔ base + stackSpace args ≤ top)
  done : ∀ sp, res = some sp → sp = top - stackSpace args ∧ base + stackSpace args ≤ top ∧ StackAt k' L top args

theorem pushArgs_spec {base : Nat} {done : List (List UInt8)}
    (h : Filling k₀ own₀ T r tf sz k own L) (hst : Writable L base top) (hpg : PGSIZE ≤ base) (hb16 : base % 16 = 0)
    (ht16 : top % 16 = 0) (htop : top ≤ TRAPFRAME) (hdone : base + argSpace done ≤ top)
    (hargs : ∀ arg ∈ argv, arg.length < PGSIZE) (hmax : done.length ≤ MAXARG) (hstr : StringsAt k L top done) :
    wp E (pushArgs psz ppt r base argv (top - argSpace done) (argAddrs top done)) k fun res k' =>
      Filling k₀ own₀ T r tf sz k' own L ∧ Pushed base top (done ++ argv) k L res k' := by
  have hU : top < U64 := by
    simp only [TRAPFRAME, TRAMPOLINE, MAXVA, PGSIZE, U64] at htop ⊢
    omega
  have hmod : argSpace done % 16 = 0 := argSpace_mod
  induction argv generalizing k done with
  | nil =>
    unfold pushArgs
    simp only
    rw [argAddrs_length, List.append_nil]
    have h8 : (done.length + 1) * 8 ≤ PGSIZE := by
      simp only [MAXARG, PGSIZE] at hmax ⊢
      omega
    obtain ⟨hsp, hle⟩ := push_eq (top - argSpace done) ((done.length + 1) * 8) (by omega) (by omega) (by omega)
    rw [hsp, Nat.sub_sub, ← stackSpace]
    have hs : stackSpace done ≤ top := by
      unfold stackSpace
      omega
    rw [wp_ite]
    refine ⟨fun hlt => ⟨h, fun _ _ => rfl, fun _ => ?_, fun sp e => by cases e⟩, fun hge => ?_⟩
    · simp only [ne_eq, not_true_eq_false, false_iff]
      omega
    have hlen : ((argAddrs top done ++ [0]).flatMap fun a : Nat => leBytes 8 a).length = (done.length + 1) * 8 := by
      rw [flatMap_leBytes_length, List.length_append, argAddrs_length, List.length_singleton]
    have hr := round16_le (n := (done.length + 1) * 8)
    refine (copyout_filling h (hst.mono (by omega) (by rw [hlen]; unfold stackSpace; omega))).bind
      fun ok k' ⟨hok, h', hb⟩ => ?_
    subst hok
    refine ⟨h', fun b hb' => ?_, fun _ => ?_, fun sp e => ?_⟩
    · rw [hb b ?_]
      · exact if_neg (by omega)
      · simp only [TRAPFRAME, TRAMPOLINE, MAXVA, PGSIZE, NUSER] at htop ⊢
        omega
    · simp only [ne_eq, reduceCtorEq, not_false_eq_true, true_iff]
      omega
    · obtain rfl := Option.some.inj e
      exact ⟨rfl, by omega, hstr.array htop hs hb⟩
  | cons arg argv ih =>
    unfold pushArgs
    rw [argAddrs_length, wp_ite]
    refine ⟨fun hfull => ⟨h, fun _ _ => rfl, fun hc => ?_, fun sp e => by cases e⟩, fun hfull => ?_⟩
    · rw [List.length_append, List.length_cons] at hc
      omega
    simp only
    have hn := hargs arg List.mem_cons_self
    obtain ⟨hsp, hle⟩ := push_eq (top - argSpace done) (arg.length + 1) (by omega) (by omega) (by omega)
    rw [hsp]
    have hsnoc : argSpace (done ++ [arg]) = argSpace done + round16 (arg.length + 1) := by
      rw [argSpace_append, argSpace_singleton]
    have hall : argSpace (done ++ [arg]) ≤ stackSpace (done ++ arg :: argv) := by
      have happ : argSpace (done ++ [arg] ++ argv) = argSpace (done ++ [arg]) + argSpace argv := argSpace_append
      rw [List.append_cons done arg argv, stackSpace, happ]
      omega
    rw [wp_ite]
    refine ⟨fun hlt => ⟨h, fun _ _ => rfl, fun _ => ?_, fun sp e => by cases e⟩, fun hge => ?_⟩
    · simp only [ne_eq, not_true_eq_false, false_iff]
      omega
    have hr := round16_le (n := arg.length + 1)
    refine (copyout_filling h (hst.mono (by omega) (by simp; omega))).bind fun ok k₁ ⟨hok, h₁, hb⟩ => ?_
    subst hok
    rw [if_pos rfl, ← argAddrs_snoc, Nat.sub_sub, ← hsnoc]
    refine (ih h₁ (by omega) (fun a ha => hargs a (List.mem_cons_of_mem _ ha)) ?_ ?_ argSpace_mod).mono
      fun res k' ⟨h', hp⟩ => ⟨h', ?_⟩
    · rw [List.length_append, List.length_singleton]
      omega
    · exact hstr.snoc htop (by omega) hb
    rw [List.append_assoc, List.singleton_append] at hp
    refine ⟨fun b hb' => ?_, hp.fits, hp.done⟩
    rw [hp.below b hb', hb b ?_]
    · exact if_neg (by omega)
    · simp only [TRAPFRAME, TRAMPOLINE, MAXVA, PGSIZE, NUSER] at htop ⊢
      omega

end

end Xv6
