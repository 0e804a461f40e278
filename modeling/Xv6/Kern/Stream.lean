import Xv6.Kern.Lost

/-!
# The byte stream of a pipe

* `Pipe.Stream`: the bytes delivered, then the bytes in the ring, are the bytes stored; the ring's
  indices are counters modulo `2 ^ 32`, taken modulo `PIPESIZE`. Each process's bytes are those of its
  calls of `pipewrite`, in order.
* `pipe_stream`: every pipe is such a stream in every run whose `copyout`s succeed.
* `piperead_removes`: where a `copyout` fails, `piperead` has removed one byte more than it has delivered.
-/

namespace Xv6.Kern

open Conc Prog

namespace Pipe

/-- `pi->nwrite - pi->nread`. -/
def pending (p : Pipe) : Nat := (p.nwrite + 2 ^ 32 - p.nread) % 2 ^ 32

/-- The bytes in the ring, the next one to read first. -/
def ring (p : Pipe) : List UInt8 := (List.range p.pending).map fun j => p.data ((p.nread + j) % PIPESIZE)

/-- The bytes that calls of `pipewrite` have stored, in the order of the calls (newest first in the
list). -/
def sent (calls : List ((Nat → Option UInt8) × Nat)) : List (Option UInt8) :=
  calls.reverse.flatMap fun c => (List.range c.2).map c.1

/-- A stream of bytes (module doc). -/
structure Stream (p : Pipe) : Prop where
  nread_lt : p.nread < 2 ^ 32
  nwrite_lt : p.nwrite < 2 ^ 32
  pending_le : p.pending ≤ PIPESIZE
  stream : p.stored.map Prod.snd = p.delivered ++ p.ring
  own : ∀ t, (p.stored.filter fun b => b.1 == t).map (fun b => some b.2) = sent (p.calls t)

variable {p : Pipe}

section

variable (hr : p.nread < 2 ^ 32) (hw : p.nwrite < 2 ^ 32)
include hr hw

theorem nwrite_eq : p.nwrite = (p.nread + p.pending) % 2 ^ 32 := by
  unfold pending
  omega

theorem full_iff (hp : p.pending ≤ PIPESIZE) : p.full = true ↔ p.pending = PIPESIZE := by
  unfold full pending at *
  rw [beq_iff_eq]
  unfold PIPESIZE at *
  omega

theorem empty_iff : p.empty = true ↔ p.pending = 0 := by
  unfold empty pending
  rw [beq_iff_eq]
  omega

/-- The slot of a byte in the ring: `PIPESIZE` divides `2 ^ 32`. -/
theorem slot_eq : p.nwrite % PIPESIZE = (p.nread + p.pending) % PIPESIZE := by
  rw [nwrite_eq hr hw]
  exact Nat.mod_mod_of_dvd _ (by decide)

end

section

variable {t : Nat} {ch : UInt8}

theorem pending_put (hr : p.nread < 2 ^ 32) (hw : p.nwrite < 2 ^ 32) (hp : p.pending < PIPESIZE) :
    (p.put t ch).pending = p.pending + 1 := by
  unfold pending put at *
  simp only
  unfold PIPESIZE at hp
  omega

theorem ring_put (hr : p.nread < 2 ^ 32) (hw : p.nwrite < 2 ^ 32) (hp : p.pending < PIPESIZE) :
    (p.put t ch).ring = p.ring ++ [ch] := by
  unfold ring
  rw [pending_put hr hw hp, List.range_succ, List.map_append]
  congr 1
  · refine List.map_congr_left fun j hj => ?_
    have hne : (p.nread + j) % PIPESIZE ≠ p.nwrite % PIPESIZE := by
      rw [slot_eq hr hw]
      have := List.mem_range.mp hj
      unfold PIPESIZE at *
      omega
    simp [put, hne]
  · simp [put, slot_eq hr hw]

variable {src : Nat → Option UInt8} {i : Nat} {l : List ((Nat → Option UInt8) × Nat)}

theorem sent_countByte
    (hch : src i = some ch) : sent (countByte ((src, i) :: l)) = sent ((src, i) :: l) ++ [some ch] := by
  simp [sent, countByte, List.range_succ, hch]

/-- A byte is stored. -/
theorem Stream.put (h : p.Stream) (hf : p.full = false) (hc : p.calls t = (src, i) :: l)
    (hch : src i = some ch) : (p.put t ch).Stream := by
  have hlt : p.pending < PIPESIZE := by
    refine lt_of_le_of_ne h.pending_le fun he => ?_
    rw [(full_iff h.nread_lt h.nwrite_lt h.pending_le).mpr he] at hf
    cases hf
  refine ⟨h.nread_lt, Nat.mod_lt _ (by decide), ?_, ?_, fun u => ?_⟩
  · rw [pending_put h.nread_lt h.nwrite_lt hlt]
    omega
  · rw [ring_put h.nread_lt h.nwrite_lt hlt, ← List.append_assoc]
    simp only [Pipe.put, List.map_append, h.stream]
    rfl
  · by_cases hu : u = t
    · subst hu
      have := h.own u
      rw [hc] at this
      simp [Pipe.put, hc, sent_countByte hch, this]
    · simp [Pipe.put, Function.update_of_ne hu, ← h.own u, Ne.symm hu]

end

theorem pending_get {b : Bool} (hr : p.nread < 2 ^ 32) (hw : p.nwrite < 2 ^ 32) (hp : p.pending ≠ 0) :
    p.pending = (p.get b).pending + 1 := by
  unfold pending get at *
  simp only
  omega

theorem ring_get {b : Bool} (hr : p.nread < 2 ^ 32) (hw : p.nwrite < 2 ^ 32) (hp : p.pending ≠ 0) :
    p.ring = p.head :: (p.get b).ring := by
  unfold ring
  rw [pending_get (b := b) hr hw hp, List.range_succ_eq_map, List.map_cons, List.map_map]
  congr 1
  refine List.map_congr_left fun j _ => ?_
  have : (p.nread + (j + 1)) % PIPESIZE = ((p.nread + 1) % 2 ^ 32 + j) % PIPESIZE := by
    unfold PIPESIZE
    omega
  simp only [Function.comp_apply, get, Nat.succ_eq_add_one, this]

/-- A byte is taken out and copied to the reader. -/
theorem Stream.get (h : p.Stream) (he : p.empty = false) : (p.get true).Stream := by
  have hne : p.pending ≠ 0 := by
    intro hp
    rw [(empty_iff h.nread_lt h.nwrite_lt).mpr hp] at he
    cases he
  refine ⟨Nat.mod_lt _ (by decide), h.nwrite_lt, ?_, ?_, h.own⟩
  · have := pending_get (b := true) h.nread_lt h.nwrite_lt hne
    have := h.pending_le
    omega
  · have := h.stream
    rw [ring_get (b := true) h.nread_lt h.nwrite_lt hne] at this
    simpa [Pipe.get] using this

theorem Stream.close {writable : Bool} (h : p.Stream) : (p.close writable).Stream := by
  cases writable <;> exact ⟨h.1, h.2, h.3, h.4, h.5⟩

theorem Stream.writeBegin {t : Nat} {src : Nat → Option UInt8} (h : p.Stream) : (p.writeBegin t src).Stream := by
  refine ⟨h.1, h.2, h.3, h.4, fun u => ?_⟩
  by_cases hu : u = t
  · subst hu
    have := h.own u
    simpa [Pipe.writeBegin, sent] using this
  · simpa [Pipe.writeBegin, hu] using h.own u

/-- An empty pipe. -/
theorem stream_init (data : Nat → UInt8) : ({ data := data } : Pipe).Stream := by
  have hp : ({ data := data } : Pipe).pending = 0 := by norm_num [pending]
  refine ⟨by norm_num, by norm_num, by simp [hp], ?_, fun _ => rfl⟩
  simp [ring, hp]

end Pipe

/-! ## Every run -/

/-- `piperead` returns 0 bytes only at the end of the stream. -/
def Ev.ReadOk : Ev → Prop
  | .read _ n i empty writeopen => 0 < n → i = 0 → empty = true ∧ writeopen = false
  | _ => True

/-- Every pipe is a stream, and every `piperead` has returned what it may. -/
structure St.Streams (s : St) : Prop where
  pipe : ∀ pi, (s.pipe pi).Stream
  read : ∀ e ∈ s.hist, e.ReadOk

namespace St.Streams

variable {s s' : St}

theorem setPipe {pi : Nat} {v : Pipe} (h : s.Streams) (hv : v.Stream) (hp : s'.pipe = Function.update s.pipe pi v)
    (hh : s'.hist = s.hist) : s'.Streams := by
  refine ⟨fun pi' => ?_, by rw [hh]; exact h.read⟩
  by_cases hpi : pi' = pi
  · rw [hpi, hp, Function.update_self]
    exact hv
  · rw [hp, Function.update_of_ne hpi]
    exact h.pipe pi'

theorem other (h : s.Streams) (hp : s'.pipe = s.pipe) (hh : ∀ e ∈ s'.hist, e ∈ s.hist ∨ e.ReadOk) : s'.Streams :=
  ⟨by rw [hp]; exact h.pipe, fun e he => (hh e he).elim (h.read e) id⟩

end St.Streams

theorem mem_readOk {e : Ev} {h : List Ev} (he : e.ReadOk) (x : Ev) (hx : x ∈ e :: h) : x ∈ h ∨ x.ReadOk :=
  (List.mem_cons.mp hx).elim (fun hx => .inr (hx ▸ he)) .inl

theorem streams_step {β : Type} {t : Tid} {a : Act β} {s : St} (h : s.Streams) (hp : sleepPre copiesOk t a s)
    (hok : copiesOk t a s = true) : (a.effect t s).Streams := by
  cases a with
  | put pi p ch =>
    obtain ⟨rfl, hf, src, i, l, hc, hch⟩ := hp
    exact h.setPipe ((h.pipe pi).put hf hc hch) rfl rfl
  | get pi copy =>
    obtain rfl : copy = true := hok
    exact h.setPipe ((h.pipe pi).get hp) rfl rfl
  | setClosed pi writable => exact h.setPipe (h.pipe pi).close rfl rfl
  | writeBegin pi p src => exact h.setPipe (h.pipe pi).writeBegin rfl rfl
  | readEnd pi n i => exact h.other rfl (mem_readOk (hp fun _ _ _ _ h => h))
  | wake q chan =>
    show (if (s.proc q).chan = some chan then s.setProc q Proc.wake else s).Streams
    split
    · exact h.other rfl fun _ => .inl
    · exact h
  | kill q pid =>
    show (if (s.proc q).pid = pid then _ else s).Streams
    split
    · exact h.other rfl (mem_readOk trivial)
    · exact h
  | alloc q p =>
    show (if (s.proc q).state = .unused then _ else s).Streams
    split
    · exact h.other rfl (mem_readOk trivial)
    · exact h
  | reparent q p =>
    show (if (s.proc q).parent = some p then _ else s).Streams
    split
    · exact h.other rfl fun _ => .inl
    · exact h
  | freeproc q ret =>
    rcases ret with _ | ⟨p, pid, x⟩
    · exact h.other rfl fun _ => .inl
    · exact h.other rfl (mem_readOk trivial)
  | setZombie | setKilled | woke | slept => exact h.other rfl (mem_readOk trivial)
  | _ => exact h.other rfl fun _ => .inl

/-- **The byte stream of every pipe**, in every state of every run whose `copyout`s succeed. -/
theorem pipe_stream {data : Nat → Nat → UInt8} {c : Conf Act St Mode}
    (h : (sysIf copiesOk).Reach (boot data) c) : c.st.Streams := by
  refine Sys.Reach.induct (Y := sysIf copiesOk) (Z := sysIf copiesOk) (I := St.Streams) (L := sleepLogic copiesOk)
    rfl (sleepCalls copiesOk) (sleepOk_init copiesOk data) (fun _ _ _ _ _ h => h) (fun _ _ _ _ h => h) ?_ ?_ h
  · refine ⟨fun pi => Pipe.stream_init (data pi), fun e he => ?_⟩
    obtain rfl : e = .alloc initproc 1 false := by simpa [boot] using he
    trivial
  · intro β t a s γ b s' _ hp hi he
    obtain ⟨-, -, rfl⟩ := exec_ok (execIf_exec _ _ _ _ he)
    exact streams_step hi hp (execIf_ok he)

/-- `initproc` writes three bytes and reads two. -/
def writeRead : List (Move Cmd) :=
  [.call 0 .start, .go 0 10, .call 0 (.user (.pipewrite 0 (fun i => some (.ofNat (i + 5))) 3 9)), .go 0 1000,
    .call 0 (.user (.piperead 0 (fun _ => true) 2 9)), .go 0 1000]

theorem pipe_stream_writeRead : ∃ c, (sysIf copiesOk).Reach (boot fun _ _ => 0) c ∧
    (c.st.pipe 0).delivered = [5, 6] ∧ (c.st.pipe 0).ring = [7] ∧ c.st.Streams := by
  obtain ⟨c, hr, ht⟩ := Sys.exists_of_play (Y := sysIf copiesOk) (c := boot fun _ _ => 0) (l := writeRead)
    (f := fun c => (c.st.pipe 0).delivered == [5, 6] && (c.st.pipe 0).ring == [7]) menu_calls (by decide +kernel)
  simp only [Bool.and_eq_true, beq_iff_eq] at ht
  exact ⟨c, hr, ht.1, ht.2, pipe_stream hr⟩

/-! ## A `copyout` that fails -/

namespace Pipe

/-- The second loop of `piperead`, with `m` turns left: how many bytes are copied, and the pipe. -/
def read (dst : Nat → Bool) : Nat → Nat → Pipe → Nat × Pipe
  | 0, i, p => (i, p)
  | m + 1, i, p =>
    if p.empty then (i, p) else if dst i then read dst m (i + 1) (p.get true) else (i, p.get false)

variable {p : Pipe} {dst : Nat → Bool}

theorem wrap_succ (a k : Nat) : ((a + 1) % 2 ^ 32 + k) % 2 ^ 32 = (a + (k + 1)) % 2 ^ 32 := by omega

theorem get_delivered : (p.get true).delivered.length = p.delivered.length + 1 := by simp [get]

theorem get_lt {copy : Bool} : (p.get copy).nread < 2 ^ 32 := Nat.mod_lt _ (by decide)

/-- Without a failing `copyout`, the loop removes what it copies. -/
theorem read_all {m i : Nat} (hr : p.nread < 2 ^ 32) (hw : p.nwrite < 2 ^ 32)
    (hd : ∀ j < min m p.pending, dst (i + j) = true) : (p.read dst m i).1 = i + min m p.pending ∧
    (p.read dst m i).2.nread = (p.nread + min m p.pending) % 2 ^ 32 ∧
    (p.read dst m i).2.delivered.length = p.delivered.length + min m p.pending := by
  induction m generalizing i p with
  | zero =>
    simp only [Nat.zero_min, Nat.add_zero]
    exact ⟨rfl, (Nat.mod_eq_of_lt hr).symm, rfl⟩
  | succ m ih =>
    unfold read
    by_cases he : p.empty = true
    · rw [if_pos he, (empty_iff hr hw).mp he]
      exact ⟨rfl, (Nat.mod_eq_of_lt hr).symm, rfl⟩
    · have hp : p.pending ≠ 0 := fun hp => he ((empty_iff hr hw).mpr hp)
      have hg := pending_get (b := true) hr hw hp
      have h0 : dst i = true := by simpa using hd 0 (by omega)
      obtain ⟨h1, h2, h3⟩ := ih (i := i + 1) (p := p.get true) get_lt hw fun j hj => by
        have := hd (j + 1) (by omega)
        rwa [show i + (j + 1) = i + 1 + j by omega] at this
      have hmin : min (m + 1) p.pending = min m (p.get true).pending + 1 := by
        rw [hg, Nat.add_min_add_right]
      rw [if_neg he, if_pos h0, h1, h2, h3, hmin, get_delivered]
      exact ⟨by omega, wrap_succ _ _, by omega⟩

/-- Where a `copyout` fails, the loop has removed one byte more than it has copied. -/
theorem read_fault {m i j : Nat} (hr : p.nread < 2 ^ 32) (hw : p.nwrite < 2 ^ 32) (hj : j < min m p.pending)
    (hd : ∀ k < j, dst (i + k) = true) (hf : dst (i + j) = false) :
    (p.read dst m i).1 = i + j ∧ (p.read dst m i).2.nread = (p.nread + j + 1) % 2 ^ 32 ∧
    (p.read dst m i).2.delivered.length = p.delivered.length + j := by
  induction m generalizing i j p with
  | zero => omega
  | succ m ih =>
    unfold read
    have hp : p.pending ≠ 0 := by omega
    have he : p.empty ≠ true := fun he => hp ((empty_iff hr hw).mp he)
    have hg := pending_get (b := true) hr hw hp
    rw [if_neg he]
    cases j with
    | zero =>
      rw [if_neg (by simpa using hf)]
      simp [get]
    | succ j =>
      obtain ⟨h1, h2, h3⟩ := ih (i := i + 1) (p := p.get true) (j := j) get_lt hw (by omega)
        (fun k hk => by
          have := hd (k + 1) (by omega)
          rwa [show i + (k + 1) = i + 1 + k by omega] at this)
        (by rwa [show i + (j + 1) = i + 1 + j by omega] at hf)
      rw [if_pos (by simpa using hd 0 (by omega)), h1, h2, h3, get_delivered]
      exact ⟨by omega, wrap_succ _ (j + 1), by omega⟩

end Pipe

section

variable {s : St} {t pi : Nat} {dst : Nat → Bool}

/-- The second loop of `piperead` always ends. -/
theorem readLoop_run {m i : Nat} : ∃ s', (Code.readLoop pi dst m i).run exec t s =
      some (.ok (((s.pipe pi).read dst m i).1, s')) ∧ s'.pipe pi = ((s.pipe pi).read dst m i).2 ∧
      s'.lock = s.lock := by
  induction m generalizing i s with
  | zero => exact ⟨s, rfl, rfl, rfl⟩
  | succ m ih =>
    have h0 : Code.readLoop pi dst (m + 1) i = (call (.isEmpty pi) >>= fun e =>
        if e = true then pure i else call (.get pi (dst i)) >>= fun _ =>
          if dst i = true then Code.readLoop pi dst m (i + 1) else pure i) := rfl
    rw [h0, run_call rfl, show (Act.isEmpty pi).answer t s = (s.pipe pi).empty from rfl]
    unfold Pipe.read
    by_cases he : (s.pipe pi).empty = true
    · rw [if_pos he, if_pos he]
      exact ⟨s, rfl, rfl, rfl⟩
    · rw [if_neg he, if_neg he, run_call rfl]
      by_cases hd : dst i = true
      · rw [if_pos hd, if_pos hd]
        obtain ⟨s', h1, h2, h3⟩ := ih (i := i + 1) (s := s.setPipe pi fun p => p.get true)
        rw [St.setPipe_self] at h1 h2
        rw [hd]
        exact ⟨s', h1, h2, h3⟩
      · rw [if_neg hd, if_neg hd]
        refine ⟨s.setPipe pi fun p => p.get (dst i), rfl, ?_, rfl⟩
        rw [St.setPipe_self, Bool.eq_false_iff.mpr hd]

/-- One turn of `wakeup`, where the lock of the process is free. -/
theorem wakeOne_run {k : Chan} {q : Nat} (h : q ≠ t → s.lock (.proc q) = none) :
    ∃ s', (Code.wakeOne t k q).run exec t s = some (.ok ((), s')) ∧ s'.pipe = s.pipe ∧ s'.lock = s.lock := by
  unfold Code.wakeOne
  split
  · rename_i hq
    set s₁ := (Act.acquire (.proc q)).effect t s with hs₁
    set s₂ := (Act.wake q k).effect t s₁ with hs₂
    have hl₂ : s₂.pipe = s₁.pipe ∧ s₂.lock = s₁.lock := by
      rw [hs₂]
      show (if (s₁.proc q).chan = some k then s₁.setProc q Proc.wake else s₁).pipe = _ ∧ _
      show _ ∧ (if (s₁.proc q).chan = some k then s₁.setProc q Proc.wake else s₁).lock = _
      split <;> exact ⟨rfl, rfl⟩
    have hlk : s₂.lock (.proc q) = some t := by rw [hl₂.2, hs₁]; simp [Act.effect]
    refine ⟨(Act.release (.proc q)).effect t s₂, ?_, hl₂.1, ?_⟩
    · rw [show Code.acquire (.proc q) = call (.acquire (.proc q)) from rfl, run_call (acquire_check (h hq)),
        run_call rfl, show Code.release (.proc q) = call (.release (.proc q)) >>= ret from rfl,
        run_call (release_check hlk)]
      rfl
    · funext l
      show (s₂.setLock (.proc q) none).lock l = s.lock l
      by_cases hl : l = .proc q
      · rw [hl, St.setLock_self, h hq]
      · rw [St.setLock_ne _ _ _ hl, hl₂.2, hs₁]
        simp [Act.effect, St.setLock_ne, hl]
  · exact ⟨s, rfl, rfl, rfl⟩

theorem wakeEach_run {k : Chan} {l : List Nat} (h : ∀ q, q ≠ t → s.lock (.proc q) = none) :
    ∃ s', (Prog.each l (Code.wakeOne t k)).run exec t s = some (.ok ((), s')) ∧ s'.pipe = s.pipe ∧
      s'.lock = s.lock := by
  induction l generalizing s with
  | nil => exact ⟨s, rfl, rfl, rfl⟩
  | cons q l ih =>
    obtain ⟨s₁, h1, h2, h3⟩ := wakeOne_run (k := k) (h q)
    obtain ⟨s₂, h4, h5, h6⟩ := ih (s := s₁) (by rwa [h3])
    refine ⟨s₂, ?_, h5.trans h2, h6.trans h3⟩
    unfold Prog.each
    rw [run_bind, h1]
    exact h4

/-- A `wakeup` where the locks of the processes are free. -/
theorem wakeup_run {k : Chan} (h : ∀ q, q ≠ t → s.lock (.proc q) = none) :
    ∃ s', (Code.wakeup k).run exec t s = some (.ok ((), s')) ∧ s'.pipe = s.pipe ∧ s'.lock = s.lock := by
  obtain ⟨s₁, h1, h2, h3⟩ := wakeEach_run (k := k) (l := List.range NPROC)
    (s := (Act.waking t k).effect t s) h
  refine ⟨(Act.woke k).effect t s₁, ?_, h2, h3⟩
  unfold Code.wakeup
  rw [run_call rfl, show (Act.myproc).answer t s = t from rfl, run_call rfl, run_bind]
  rw [show (Act.myproc).effect t s = s from rfl, h1]
  rfl

/-- The first loop of `piperead` does not wait. -/
theorem readWait_run {fuel : Nat} (h : ((s.pipe pi).empty && (s.pipe pi).writeopen) = false) :
    (Code.readWait pi t (fuel + 1)).run exec t s = some (.ok (true, s)) := by
  have hb : (Code.readBlocked pi).run exec t s = some (.ok (false, s)) := by
    unfold Code.readBlocked
    rw [run_call rfl, show (Act.isEmpty pi).answer t s = (s.pipe pi).empty from rfl]
    by_cases he : (s.pipe pi).empty = true
    · have hw : (s.pipe pi).writeopen = false := by simpa [he] using h
      rw [if_pos he, ← hw]
      rfl
    · rw [if_neg he]
      rfl
  unfold Code.readWait
  rw [run_bind, hb]
  rfl

/-- **What `piperead` removes.** It delivers the bytes that it returns, and it removes exactly these if and only
if the destination of each of the first `n` bytes that are there can be written. -/
theorem piperead_removes {n : Int} {fuel : Nat} (hr : (s.pipe pi).nread < 2 ^ 32)
    (hw : (s.pipe pi).nwrite < 2 ^ 32) (hl : s.lock (.pipe pi) = none)
    (hp : ∀ q, q ≠ t → s.lock (.proc q) = none)
    (hgo : ((s.pipe pi).empty && (s.pipe pi).writeopen) = false) :
    ∃ (i : Nat) (s' : St), (Code.piperead pi dst n (fuel + 1)).run exec t s = some (.ok ((i : Int), s')) ∧
      (s'.pipe pi).delivered.length = (s.pipe pi).delivered.length + i ∧
      ((s'.pipe pi).nread = ((s.pipe pi).nread + i) % 2 ^ 32 ↔
        ∀ j < min n.toNat (s.pipe pi).pending, dst j = true) := by
  set s₁ := (Act.acquire (.pipe pi)).effect t s with hs₁
  have hpipe₁ : s₁.pipe = s.pipe := rfl
  obtain ⟨s₂, h2, hpipe₂, hlock₂⟩ := @readLoop_run s₁ t pi dst n.toNat 0
  set r := (s.pipe pi).read dst n.toNat 0 with hrdef
  set s₃ := (Act.readEnd pi n r.1).effect t s₂ with hs₃
  have hproc : ∀ q, q ≠ t → s₃.lock (.proc q) = none := by
    intro q hq
    show s₂.lock _ = none
    rw [hlock₂, hs₁]
    simpa [Act.effect, St.setLock_ne] using hp q hq
  obtain ⟨s₄, h4, hpipe₄, hlock₄⟩ := wakeup_run (k := .nwrite pi) hproc
  have hheld : s₄.lock (.pipe pi) = some t := by
    rw [hlock₄]
    show s₂.lock _ = some t
    rw [hlock₂, hs₁]
    simp [Act.effect]
  have hfinal : ((Act.release (.pipe pi)).effect t s₄).pipe pi = r.2 := by
    show s₄.pipe pi = _
    rw [hpipe₄]
    exact hpipe₂
  refine ⟨r.1, (Act.release (.pipe pi)).effect t s₄, ?_, ?_⟩
  · unfold Code.piperead
    rw [run_call rfl, show (Act.myproc).answer t s = t from rfl, show (Act.myproc).effect t s = s from rfl,
      show Code.acquire (.pipe pi) = call (.acquire (.pipe pi)) from rfl,
      run_call (acquire_check hl), run_bind, ← hs₁, readWait_run (s := s₁) hgo]
    show (Prog.run exec t (do
      let i ← Code.readLoop pi dst n.toNat 0
      call (.readEnd pi n i)
      Code.wakeup (.nwrite pi)
      Code.release (.pipe pi)
      pure (i : Int)) s₁) = _
    rw [run_bind, h2]
    show (Prog.run exec t (do
      call (.readEnd pi n r.1)
      Code.wakeup (.nwrite pi)
      Code.release (.pipe pi)
      pure (r.1 : Int)) s₂) = _
    rw [run_call rfl, run_bind, h4]
    show (Prog.run exec t (do
      Code.release (.pipe pi)
      pure (r.1 : Int)) s₄) = _
    rw [show Code.release (.pipe pi) = call (.release (.pipe pi)) from rfl, run_call (release_check hheld)]
    rfl
  · rw [hfinal]
    by_cases hall : ∀ j < min n.toNat (s.pipe pi).pending, dst j = true
    · obtain ⟨h1, h2, h3⟩ := Pipe.read_all (m := n.toNat) (i := 0) hr hw (by simpa using hall)
      rw [← hrdef] at h1 h2 h3
      rw [h1, h2, h3]
      simpa using hall
    · -- the first byte whose destination cannot be written
      obtain ⟨j, ⟨hj, hfail⟩, hmin⟩ : ∃ j, (j < min n.toNat (s.pipe pi).pending ∧ dst j ≠ true) ∧
          ∀ k < j, dst k = true := by
        push Not at hall
        refine ⟨Nat.find hall, Nat.find_spec hall, fun k hk => ?_⟩
        by_contra hd
        exact Nat.find_min hall hk ⟨hk.trans (Nat.find_spec hall).1, hd⟩
      obtain ⟨h1, h2, h3⟩ := Pipe.read_fault (m := n.toNat) (i := 0) hr hw hj
        (by simpa using hmin) (by simpa using hfail)
      rw [← hrdef] at h1 h2 h3
      rw [h1, h2, h3]
      refine ⟨by omega, fun h => ?_, fun h => (hall h).elim⟩
      exfalso
      omega

end

/-- One byte in a pipe, and an address that cannot be written: nothing is read, and the byte is gone. -/
def byteLost (c : Conf Act St Mode) : Bool :=
  (c.st.pipe 0).stored == [(0, 7)] && (c.st.pipe 0).delivered == [] && (c.st.pipe 0).nread == 1 &&
    (c.st.pipe 0).nwrite == 1 &&
    match c.st.hist with
    | .woke _ _ :: .read 0 1 0 _ _ :: _ => true
    | _ => false

/-- `initproc` writes a byte, and reads it to a bad address. -/
def writeReadBad : List (Move Cmd) :=
  [.call 0 .start, .go 0 10, .call 0 (.user (.pipewrite 0 (fun _ => some 7) 1 9)), .go 0 1000,
    .call 0 (.user (.piperead 0 (fun _ => false) 1 9)), .go 0 1000]

/-- **A `piperead` whose `copyout` fails loses a byte.** -/
theorem piperead_loses_byte : ∃ c, sys.Reach (boot fun _ _ => 0) c ∧ byteLost c = true := by
  exact Sys.exists_of_play (Y := sys) (l := writeReadBad) menu_calls (by decide +kernel)

/-- A pipe with the bytes 1 and 2 in a state where every lock is free. -/
def twoBytes : St where
  pipe := fun _ => { data := fun j => .ofNat (j + 1), nwrite := 2, stored := [(0, 1), (0, 2)] }

/-- Two bytes are there and the destination of the second cannot be written. -/
theorem piperead_removes_twoBytes : ∃ (i : Nat) (s' : St),
    (Code.piperead 0 (fun j => j == 0) 5 1).run exec 0 twoBytes = some (.ok ((i : Int), s')) ∧
      (s'.pipe 0).delivered.length = i ∧ ¬ (s'.pipe 0).nread = i % 2 ^ 32 := by
  obtain ⟨i, s', h1, h2, h3⟩ := @piperead_removes twoBytes 0 0 (fun j => j == 0) 5 0
    (by decide) (by decide) rfl (fun _ _ => rfl) (by decide)
  refine ⟨i, s', h1, by simpa [twoBytes] using h2, fun h => ?_⟩
  have := h3.mp (by simpa [twoBytes] using h) 1 (by decide)
  cases this

end Xv6.Kern
