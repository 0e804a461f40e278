import Xv6.Vm.ProcInv

/-!
# Files and pipes

`fileclose` and `pipealloc` keep the invariant: a pipe's page is freed when its second end is
closed, and not before. The panics "fileclose" and "filedup" are for reference counts that are
wrong; they are not about memory, and the specs here allow them.
-/

namespace Xv6

open Seq
open Function (update update_apply update_idem update_of_ne update_self)

section

variable [K : Layout] {E : Panic → Prop} {kp : Nat → Prop} {hs : List Nat} {s s' : Vm}
variable {own own' : Nat → Owner} {T : Nat → Option (Nat → Nat)}
variable {file file' : Nat → File} {pipe pipe' : Nat → Pipe} {f q : Nat} {w : Bool}

/-- The invariant, for some owners and tables. -/
def Inv (kp : Nat → Prop) (hs : List Nat) (s : Vm) : Prop := ∃ own T, VmInv kp hs s own T

omit K in
theorem wp_onMem {α : Type} {m : KM α} {Q : α → Vm → Prop} :
    wp E (onMem m) s Q ↔ wp E m s.kmem fun a k => Q a { s with kmem := k } := wp_zoom

omit K in
theorem wp_getProc {p : Nat} {Q : Proc → Vm → Prop} : wp E (getProc p) s Q ↔ Q (s.proc p) s := Iff.rfl

omit K in
theorem wp_setProc {p : Nat} {f : Proc → Proc} {Q : Unit → Vm → Prop} :
    wp E (setProc p f) s Q ↔ Q () (s.setProc p f) := Iff.rfl

/-! ## Ends of pipes -/

omit K in
/-- A change of the files that opens and closes no end. -/
theorem PipesOk.sameEnds (h : PipesOk file pipe own)
    (he : ∀ f q w, IsEnd file' f q w ↔ IsEnd file f q w)
    (hi : ∀ f, (file' f).ref = 0 → (file' f).type = .none) : PipesOk file' pipe own where
  idle := hi
  ofEnd f q w hf := h.ofEnd f q w ((he f q w).mp hf)
  one f f' q w hf hf' := h.one f f' q w ((he f q w).mp hf) ((he f' q w).mp hf')
  ofOpen q w hq ho := by
    obtain ⟨f, hf⟩ := h.ofOpen q w hq ho
    exact ⟨f, (he f q w).mpr hf⟩
  some := h.some

omit K in
/-- Only file `f` is changed. -/
theorem isEnd_update {fl : File} (hf : ∀ q w, IsEnd (update file f fl) f q w ↔ IsEnd file f q w)
    (f' q : Nat) (w : Bool) : IsEnd (update file f fl) f' q w ↔ IsEnd file f' q w := by
  by_cases e : f' = f
  · subst e; exact hf q w
  · unfold IsEnd; rw [update_of_ne e]

omit K in
theorem idle_update {x : File} (h : ∀ f, (file f).ref = 0 → (file f).type = .none) (hf : x.ref = 0 → x.type = .none)
    (f' : Nat) : (update file f x f').ref = 0 → (update file f x f').type = .none := by
  by_cases e : f' = f
  · subst e; rw [update_self]; exact hf
  · rw [update_of_ne e]; exact h f'

omit K in
/-- The end `f` of the pipe in page `q` is closed, and the other one is open. -/
theorem PipesOk.closeEnd (h : PipesOk file pipe own) (hf : IsEnd file f q w)
    (he : ∀ f' q' w', IsEnd file' f' q' w' ↔ f' ≠ f ∧ IsEnd file f' q' w')
    (hi : ∀ f, (file' f).ref = 0 → (file' f).type = .none) (hp : ∀ q', q' ≠ q → pipe' q' = pipe q')
    (hw : (pipe' q).isOpen w = false) (hw' : (pipe' q).isOpen (!w) = (pipe q).isOpen (!w))
    (ho : (pipe' q).isOpen (!w) = true) : PipesOk file' pipe' own := by
  obtain ⟨-, ofEnd, one, ofOpen, some⟩ := h
  -- the ends other than the one that is closed are open as before
  have hsame : ∀ q' w', ¬ (q' = q ∧ w' = w) → (pipe' q').isOpen w' = (pipe q').isOpen w' := by
    cases w <;> grind
  have hend : ∀ f' q' w', f' = f → IsEnd file f' q' w' → q' = q ∧ w' = w := by
    rintro f' q' w' rfl ⟨-, -, h3, h4⟩
    exact ⟨h3.symm.trans hf.2.2.1, h4.symm.trans hf.2.2.2⟩
  constructor
  · exact hi
  all_goals grind

omit K in
/-- The last open end `f` of the pipe in page `q` is closed, and the page is no pipe's. -/
theorem PipesOk.closeLast {o : Owner} (h : PipesOk file pipe own) (hf : IsEnd file f q w)
    (he : ∀ f' q' w', IsEnd file' f' q' w' ↔ f' ≠ f ∧ IsEnd file f' q' w')
    (hi : ∀ f, (file' f).ref = 0 → (file' f).type = .none) (hp : ∀ q', q' ≠ q → pipe' q' = pipe q')
    (hc : (pipe q).isOpen (!w) = false) (ho : o ≠ .pipe) : PipesOk file' pipe' (update own q o) := by
  obtain ⟨-, ofEnd, one, ofOpen, some⟩ := h
  have hend : ∀ q' w', IsEnd file f q' w' → q' = q := fun q' w' h => h.2.2.1.symm.trans hf.2.2.1
  -- no other file is an end of this pipe
  have hother : ∀ f' w', IsEnd file f' q w' → f' = f := by
    intro f' w' he
    by_cases e : w' = w
    · exact one f' f q w (e ▸ he) hf
    · have := (ofEnd f' q w' he).2
      rw [Bool.eq_not_of_ne e, hc] at this
      cases this
  have hown := update_apply own q o
  constructor
  · exact hi
  all_goals grind

/-! ## `file.c` -/

/-- The files change and no page changes hands. -/
theorem VmInv.setFiles (h : VmInv kp hs s own T) (hk : s'.kmem = s.kmem) (hp : s'.proc = s.proc)
    (hpi : PipesOk s'.file s'.pipe own) : VmInv kp hs s' own T :=
  ⟨hk ▸ h.mem, h.kernel, h.held, h.nodup, hp ▸ h.procs, hpi⟩

theorem filealloc_spec (h : VmInv kp hs s own T) :
    wp E filealloc s fun res s' => VmInv kp hs s' own T ∧ s'.proc = s.proc ∧
      (∀ f, res = some f → (s'.file f).ref = 1 ∧ (s'.file f).type = .none) ∧
      (∀ f, (s.file f).ref ≠ 0 → s'.file f = s.file f ∧ res ≠ some f) := by
  unfold filealloc fileallocOf
  rw [wp_bind, wp_gets]
  rcases hf : freeFile s.file with _ | f
  · exact ⟨h, rfl, by simp, fun _ _ => ⟨rfl, by simp⟩⟩
  have h0 : (s.file f).ref = 0 := by simpa using List.find?_some hf
  have hidle := h.pipes.idle f h0
  refine ⟨h.setFiles rfl rfl (h.pipes.sameEnds (isEnd_update fun q w => ?_) (idle_update h.pipes.idle ?_)),
    rfl, fun f' e => ?_, fun f' hne => ⟨?_, ?_⟩⟩
  · unfold IsEnd; rw [update_self]; simp [h0, hidle]
  · intro e; cases e
  · obtain rfl := Option.some.inj e
    simp [Vm.setFile, hidle]
  · exact update_of_ne (by rintro rfl; exact hne h0) _ _
  · rintro e
    obtain rfl := Option.some.inj e
    exact hne h0

theorem filedup_spec (h : VmInv kp hs s own T) (hE : E .filedup) :
    wp E (filedup f) s fun _ s' => VmInv kp hs s' own T ∧ s'.proc = s.proc := by
  unfold filedup
  rw [wp_bind, wp_gets, wp_ite]
  refine ⟨fun _ => hE, fun hr => ?_⟩
  refine ⟨h.setFiles rfl rfl (h.pipes.sameEnds (isEnd_update fun q w => ?_) (idle_update h.pipes.idle ?_)), rfl⟩
  · unfold IsEnd; rw [update_self]; simp; omega
  · intro e; simp at e

/-- `pipeclose` of an end whose file is gone from the file table. -/
theorem pipeclose_spec {s₀ : Vm} (h : VmInv kp hs s₀ own T) (hf : IsEnd s₀.file f q w)
    (hk : s.kmem = s₀.kmem) (hp : s.proc = s₀.proc) (hpi : s.pipe = s₀.pipe)
    (he : ∀ f' q' w', IsEnd s.file f' q' w' ↔ f' ≠ f ∧ IsEnd s₀.file f' q' w')
    (hi : ∀ f, (s.file f).ref = 0 → (s.file f).type = .none) :
    wp E (pipeclose q w) s fun _ s' => Inv kp hs s' ∧ s'.proc = s₀.proc := by
  -- the state after the flag is cleared
  have key : ∀ pi : Pipe, pi.isOpen w = false → pi.isOpen (!w) = (s.pipe q).isOpen (!w) →
      wp E (do
        let pp ← M.gets fun s : Vm => s.pipe q
        if pp.readopen = false ∧ pp.writeopen = false then onMem (kfree q) else pure ())
        (s.setPipe q fun _ => pi) fun _ s' => Inv kp hs s' ∧ s'.proc = s₀.proc := by
    intro pi hw hw'
    have hown := (h.pipes.ofEnd f q w hf).1
    have hself : (s.setPipe q fun _ => pi).pipe q = pi := update_self ..
    have hoff : ∀ q', q' ≠ q → (s.setPipe q fun _ => pi).pipe q' = s₀.pipe q' := fun q' e =>
      (update_of_ne e _ _).trans (congrFun hpi q')
    rw [wp_bind, wp_gets, hself, wp_ite]
    rw [hpi] at hw'
    constructor
    · rintro ⟨hr, hwr⟩
      have hc : pi.isOpen (!w) = false := by
        unfold Pipe.isOpen
        split
        · exact hwr
        · exact hr
      rw [wp_onMem]
      refine wp_kfree (h.mem.isPage (by rw [hown]; simp)) ⟨⟨update own q .free, T, ?_⟩, hp⟩
      have hkeep : ∀ q' o, o ≠ .pipe → o ≠ .free → (update own q .free q' = o ↔ own q' = o) :=
        fun q' o h1 h2 => own_update_iff (Ne.symm h2) (by rw [hown]; exact Ne.symm h1)
      refine ⟨?_, fun q' => ?_, fun q' => ?_, h.nodup, ?_, ?_⟩
      · exact h.mem.push (by rw [hown]; rfl) (by rw [hown]; simp) (by rw [hown]; simp)
          (by rw [← hk]; rfl) fun q' e => (update_of_ne e _ _).trans (by rw [← hk]; rfl)
      · rw [hkeep q' _ (by simp) (by simp)]; exact h.kernel q'
      · rw [hkeep q' _ (by simp) (by simp)]; exact h.held q'
      · show ProcsOk s.proc _ _
        rw [hp]
        exact h.procs.congr (fun _ => .refl) fun q' p => hkeep q' _ (by simp) (by simp)
      · exact h.pipes.closeLast hf he hi hoff (hw' ▸ hc) (by simp)
    · intro hopen
      refine ⟨⟨own, T, h.setFiles hk hp (h.pipes.closeEnd hf he hi hoff
        (by rw [hself]; exact hw) (by rw [hself]; exact hw') ?_)⟩, hp⟩
      rw [hself]
      by_contra hc
      refine hopen ?_
      unfold Pipe.isOpen at hw hc
      cases w <;> simp_all
  unfold pipeclose
  cases w with
  | true =>
    rw [if_pos rfl]
    simp only [setPipe]
    rw [wp_bind, wp_modify]
    exact key { s.pipe q with writeopen := false } rfl rfl
  | false =>
    rw [if_neg (by simp)]
    simp only [setPipe]
    rw [wp_bind, wp_modify]
    exact key { s.pipe q with readopen := false } rfl rfl

/-- `fileclose` keeps the invariant. -/
theorem fileclose_spec (h : Inv kp hs s) (hE : E .fileclose) :
    wp E (fileclose f) s fun _ s' => Inv kp hs s' ∧ s'.proc = s.proc := by
  obtain ⟨own, T, h⟩ := h
  unfold fileclose filecloseOf
  rw [wp_bind, wp_gets, wp_ite]
  refine ⟨fun _ => hE, fun hr => ?_⟩
  rw [wp_ite]
  refine ⟨fun hgt => ⟨⟨own, T, h.setFiles rfl rfl ?_⟩, rfl⟩, fun hle => ?_⟩
  · refine h.pipes.sameEnds (isEnd_update fun q w => ?_) (idle_update h.pipes.idle ?_)
    · unfold IsEnd; rw [update_self]; simp only; constructor <;> rintro ⟨h1, h2⟩ <;>
        exact ⟨by omega, h2⟩
    · intro e
      simp only at e
      omega
  simp only [setFile]
  rw [wp_bind, wp_modify]
  have hgone : ∀ q w, ¬ IsEnd (s.setFile f fun fl => { fl with ref := 0, type := .none }).file f q w := by
    rintro q w ⟨h1, -⟩
    simp [Vm.setFile] at h1
  have hidle := idle_update (f := f) (x := { s.file f with ref := 0, type := .none }) h.pipes.idle fun _ => rfl
  by_cases hpipe : (s.file f).type = .pipe
  · rw [if_pos hpipe]
    refine pipeclose_spec h ⟨by omega, hpipe, rfl, rfl⟩ rfl rfl rfl (fun f' q' w' => ?_) hidle
    by_cases e : f' = f
    · subst e; simp [hgone]
    · unfold IsEnd; simp [Vm.setFile, e]
  · rw [if_neg hpipe]
    refine ⟨⟨own, T, h.setFiles rfl rfl (h.pipes.sameEnds (isEnd_update fun q w => ?_) hidle)⟩, rfl⟩
    exact ⟨fun he => absurd he (hgone q w), fun he => absurd he.2.1 hpipe⟩

/-! ## `pipe.c` -/

omit K in
/-- A new pipe in page `q`, with the ends `f` and `f'`. -/
theorem PipesOk.newPipe {f' : Nat} (h : PipesOk file pipe own) (hq : own q ≠ .pipe) (hf : (file f).type ≠ .pipe)
    (hf' : (file f').type ≠ .pipe) (h₁ : ∀ q' w', IsEnd file' f q' w' ↔ q' = q ∧ w' = false)
    (h₂ : ∀ q' w', IsEnd file' f' q' w' ↔ q' = q ∧ w' = true) (hsame : ∀ g, g ≠ f → g ≠ f' → file' g = file g)
    (hr : (file' f).ref ≠ 0) (hr' : (file' f').ref ≠ 0) (hp : ∀ q', q' ≠ q → pipe' q' = pipe q')
    (hopen : ∀ w, (pipe' q).isOpen w = true) : PipesOk file' pipe' (update own q .pipe) := by
  obtain ⟨idle, ofEnd, one, ofOpen, some⟩ := h
  have hold : ∀ g q' w', g ≠ f → g ≠ f' → (IsEnd file' g q' w' ↔ IsEnd file g q' w') := by
    intro g q' w' h1 h2
    unfold IsEnd
    rw [hsame g h1 h2]
  have hnot : ∀ g q' w', IsEnd file g q' w' → g ≠ f ∧ g ≠ f' := by
    intro g q' w' he
    have := he.2.1
    grind
  have hown := update_apply own q .pipe
  have hsome := hopen true
  constructor
  case ofOpen =>
    intro q' w' hq' ho
    by_cases e : q' = q
    · exact ⟨if w' then f' else f, by cases w' <;> simp [h₁, h₂, e]⟩
    · grind
  all_goals grind

/-- `pipealloc` keeps the invariant. -/
theorem pipealloc_spec (h : Inv kp hs s) (hE : E .fileclose) :
    wp E pipealloc s fun _ s' => Inv kp hs s' ∧ s'.proc = s.proc := by
  obtain ⟨own, T, h⟩ := h
  unfold pipealloc
  refine (filealloc_spec h).bind fun res s₁ ⟨h₁, hp₁, hn₁, _⟩ => ?_
  rcases res with _ | f0
  · exact ⟨⟨own, T, h₁⟩, hp₁⟩
  obtain ⟨hr0, ht0⟩ := hn₁ f0 rfl
  refine (filealloc_spec h₁).bind fun res s₂ ⟨h₂, hp₂, hn₂, hk₂⟩ => ?_
  rcases res with _ | f1
  · refine (fileclose_spec ⟨own, T, h₂⟩ hE).bind fun _ s₃ ⟨h₃, hp₃⟩ => ?_
    exact ⟨h₃, hp₃.trans (hp₂.trans hp₁)⟩
  obtain ⟨hr1, ht1⟩ := hn₂ f1 rfl
  obtain ⟨hf0, hne⟩ := hk₂ f0 (by omega)
  have hne' : f0 ≠ f1 := fun e => hne (e ▸ rfl)
  simp only
  rw [wp_bind, wp_onMem]
  refine (kalloc_spec h₂.mem).mono fun res k hres => ?_
  rcases hres with ⟨rfl, hm, -⟩ | ⟨pi, rfl, hfree, hm, -⟩
  · -- no page for the pipe
    have h₃ : Inv kp hs { s₂ with kmem := k } :=
      ⟨own, T, hm, h₂.kernel, h₂.held, h₂.nodup, h₂.procs, h₂.pipes⟩
    refine (fileclose_spec h₃ hE).bind fun _ s₄ ⟨h₄, hp₄⟩ => ?_
    refine (fileclose_spec h₄ hE).bind fun _ s₅ ⟨h₅, hp₅⟩ => ?_
    exact ⟨h₅, hp₅.trans (hp₄.trans (hp₂.trans hp₁))⟩
  · refine ⟨⟨update own pi .pipe, T, ?_⟩, hp₂.trans hp₁⟩
    have hkeep : ∀ q o, o ≠ .pipe → o ≠ .free → (update own pi .pipe q = o ↔ own q = o) :=
      fun q o e e' => own_update_iff (Ne.symm e) (by rw [hfree]; exact Ne.symm e')
    have hm' := hm.retag (q := pi) (o := .pipe) (n := k) (by rw [update_self]; rfl) (by simp)
      rfl (by simp) (fun _ _ => rfl) hm.nodup (hm.free_update (by simp) (by simp))
    rw [update_idem] at hm'
    refine ⟨hm', fun q => ?_, fun q => ?_, h₂.nodup, ?_, ?_⟩
    · rw [hkeep q _ (by simp) (by simp)]; exact h₂.kernel q
    · rw [hkeep q _ (by simp) (by simp)]; exact h₂.held q
    · exact h₂.procs.congr (fun _ => .refl) fun q p => hkeep q _ (by simp) (by simp)
    · refine h₂.pipes.newPipe (by rw [hfree]; simp) (by rw [hf0, ht0]; simp)
        (by rw [ht1]; simp) (fun q' w' => ?_) (fun q' w' => ?_) (fun g e e' => ?_) ?_ ?_
        (fun q' e => update_of_ne e _ _) fun w => ?_
      · simp [IsEnd, Vm.setFile, Vm.setPipe, hne', hf0, hr0, eq_comm]
      · simp [IsEnd, Vm.setFile, Vm.setPipe, hr1, Ne.symm hne', eq_comm]
      · simp [Vm.setFile, Vm.setPipe, e, e']
      · simp [Vm.setFile, Vm.setPipe, hne', hf0, hr0]
      · simp [Vm.setFile, Vm.setPipe, Ne.symm hne', hr1]
      · cases w <;> simp [Vm.setFile, Vm.setPipe, Pipe.isOpen]

end

end Xv6
