import Xv6.Log.Header
import Xv6.Log.Struct

/-!
# The machine of the buffer cache and the log

The state is the disk, the buffer cache and `struct log`; `hist` is a history variable, the
events of the run, newest first. An action is one access to the disk, to a sleep lock or to a
buffer that the thread has locked, or one section under `bcache.lock` or `log.lock`. The functions
of `kernel/bio.c` and `kernel/log.c` are programs of these actions (namespace `Code`).

* `LogSys`: the threads are clients that call `bread`, change the buffers they hold, and call
  `log_write`, `brelse`, `begin_op` and `end_op`, in any order that the file system's code obeys
  (`LogCall`).
* `RecoversTo`: a boot after a crash. It runs `recover_from_log`, which can crash and start again.
-/

namespace Xv6

open Conc

/-- Where the log is: `log.dev` and `log.start`. -/
structure LogDev where
  dev : Nat
  start : Nat
  /-- Device 0 marks a buffer that `binit` made. -/
  dev_ne : dev ≠ 0
  start_lt : start + LOGBLOCKS < 2 ^ 32

namespace LogDev

/-- The header block and the `LOGBLOCKS` blocks after it. -/
def isLog (D : LogDev) (b : Nat) : Bool := D.start ≤ b && b ≤ D.start + LOGBLOCKS

/-- A block outside the log area. -/
def home (D : LogDev) (b : Nat) : Prop := D.isLog b = false

end LogDev

/-! ## The state -/

/-- What happened in a run. -/
inductive LogEv where
  /-- `begin_op` returned in thread `t`. -/
  | begun (t : Tid)
  /-- `log_write` of block `b` with the contents `d` in thread `t`. -/
  | logged (t : Tid) (b : Nat) (d : Block)
  /-- The first section of `end_op` in thread `t`; `last` is `do_commit`. -/
  | ended (t : Tid) (last : Bool)
  /-- `commit()` returned in thread `t`, and `log.committing` is 0 again. -/
  | committed (t : Tid)
  /-- The lock of block `b`, with the contents `d`, was released by a thread that logged it. -/
  | released (t : Tid) (b : Nat) (d : Block)

/-- The state of the machine. -/
structure LogSt where
  disk : Nat → Block
  cache : Bcache := Bcache.binit
  log : Log := {}
  hist : List LogEv := []

namespace LogSt

/-- Buffer `i` changed by `f`. -/
def updBuf (s : LogSt) (i : Nat) (f : Buf → Buf) : LogSt := { s with cache := s.cache.upd i f }

/-- A buffer. -/
def buf (s : LogSt) (i : Nat) : Buf := s.cache.buf i

end LogSt

/-! ## The actions -/

/-- The atomic actions. -/
inductive LogAct : Type → Type where
  /-- The section of `bget`. -/
  | bget (dev blockno : Nat) : LogAct Nat
  | acquiresleep (i : Nat) : LogAct Unit
  | holdingsleep (i : Nat) : LogAct Bool
  | releasesleep (i : Nat) : LogAct Unit
  /-- `b->valid`. -/
  | valid (i : Nat) : LogAct Bool
  /-- `virtio_disk_rw(b, 0); b->valid = 1`. -/
  | diskRead (i : Nat) : LogAct Unit
  /-- `virtio_disk_rw(b, 1)`. -/
  | diskWrite (i : Nat) : LogAct Unit
  /-- The section of `brelse`. -/
  | brelse (i : Nat) : LogAct Unit
  | bunpin (i : Nat) : LogAct Unit
  /-- `b->data`, read. -/
  | getData (i : Nat) : LogAct Block
  /-- `b->data`, written. -/
  | setData (i : Nat) (d : Block) : LogAct Unit
  /-- The section of `begin_op`. -/
  | beginOp : LogAct Unit
  /-- The section of `log_write`, with the `bpin` in it. -/
  | logWrite (i : Nat) : LogAct Unit
  /-- The first section of `end_op`; it answers `do_commit`. -/
  | endOp : LogAct Bool
  /-- The last section of `end_op`. -/
  | endCommit : LogAct Unit
  /-- `log.lh`, read. -/
  | getLh : LogAct (List Nat)
  /-- `log.lh`, written. -/
  | setLh (lh : List Nat) : LogAct Unit
  | panic (p : Panic) : LogAct Unit

/-- The meaning of the actions. -/
def logExec : Exec LogAct LogSt Panic := fun _ t a s =>
  match a with
  | .bget dev b =>
    match s.cache.bget t dev b with
    | .ok (i, c) => some (.ok (i, { s with cache := c }))
    | .error p => some (.error p)
  | .acquiresleep i =>
    match (s.buf i).owner with
    | none => some (.ok ((), s.updBuf i fun b => { b with owner := some t }))
    | some _ => none
  | .holdingsleep i => some (.ok ((s.buf i).owner == some t, s))
  | .releasesleep i =>
    let s' := s.updBuf i fun b => { b with owner := none, wrote := false }
    if (s.buf i).wrote then
      some (.ok ((), { s' with hist := .released t (s.buf i).blockno (s.buf i).data :: s.hist }))
    else some (.ok ((), s'))
  | .valid i => some (.ok ((s.buf i).valid, s))
  | .diskRead i =>
    some (.ok ((), s.updBuf i fun b => { b with data := s.disk b.blockno, valid := true }))
  | .diskWrite i =>
    some (.ok ((), { s with disk := Function.update s.disk (s.buf i).blockno (s.buf i).data }))
  | .brelse i => some (.ok ((), { s with cache := s.cache.brelse t i }))
  | .bunpin i => some (.ok ((), { s with cache := s.cache.bunpin i }))
  | .getData i => some (.ok ((s.buf i).data, s))
  | .setData i d => some (.ok ((), s.updBuf i fun b => { b with data := d }))
  | .beginOp =>
    match s.log.beginOp with
    | some l => some (.ok ((), { s with log := l, hist := .begun t :: s.hist }))
    | none => none
  | .logWrite i =>
    match s.log.logWrite (s.buf i).blockno with
    | .ok (l, new) =>
      let c := s.cache.upd i fun b => { b with wrote := true }
      some (.ok ((), { s with
        log := l
        cache := if new then c.bpin i else c
        hist := .logged t (s.buf i).blockno (s.buf i).data :: s.hist }))
    | .error p => some (.error p)
  | .endOp =>
    match s.log.endOp with
    | .ok (l, last) => some (.ok (last, { s with log := l, hist := .ended t last :: s.hist }))
    | .error p => some (.error p)
  | .endCommit => some (.ok ((), { s with log := s.log.endCommit, hist := .committed t :: s.hist }))
  | .getLh => some (.ok (s.log.lh, s))
  | .setLh lh => some (.ok ((), { s with log := { s.log with lh } }))
  | .panic p => some (.error p)

/-! ## The code -/

namespace Code

open Prog (call)

/-- `bget`: the buffer, locked. -/
def bget (dev blockno : Nat) : Prog LogAct Nat := do
  let i ← call (.bget dev blockno)
  call (.acquiresleep i)
  pure i

/-- `bread`. -/
def bread (dev blockno : Nat) : Prog LogAct Nat := do
  let i ← bget dev blockno
  let valid ← call (.valid i)
  if valid then pure i
  else do
    call (.diskRead i)
    pure i

/-- `bwrite`. -/
def bwrite (i : Nat) : Prog LogAct Unit := do
  let holding ← call (.holdingsleep i)
  if holding then call (.diskWrite i) else call (.panic .bwrite)

/-- `brelse`. -/
def brelse (i : Nat) : Prog LogAct Unit := do
  let holding ← call (.holdingsleep i)
  if holding then do
    call (.releasesleep i)
    call (.brelse i)
  else call (.panic .brelse)

variable (D : LogDev)

/-- One turn of the loop of `install_trans`. -/
def installBlock (recovering : Bool) (tail : Nat) : Prog LogAct Unit := do
  let lbuf ← bread D.dev (D.start + tail + 1)  -- read log block
  let lh ← call .getLh
  let dbuf ← bread D.dev (lh.getD tail 0)  -- read dst
  let data ← call (.getData lbuf)
  call (.setData dbuf data)  -- copy block to dst
  bwrite dbuf  -- write dst to disk
  if recovering then pure () else call (.bunpin dbuf)
  brelse lbuf
  brelse dbuf

/-- `install_trans`. -/
def installTrans (recovering : Bool) : Prog LogAct Unit := do
  let lh ← call .getLh
  Prog.each (List.range lh.length) (installBlock D recovering)

/-- `read_head`. -/
def readHead : Prog LogAct Unit := do
  let buf ← bread D.dev D.start
  let data ← call (.getData buf)
  call (.setLh (Hdr.read data))
  brelse buf

/-- `write_head`. -/
def writeHead : Prog LogAct Unit := do
  let buf ← bread D.dev D.start
  let lh ← call .getLh
  let data ← call (.getData buf)
  call (.setData buf (Hdr.write data lh))
  bwrite buf
  brelse buf

/-- `recover_from_log`. -/
def recoverFromLog : Prog LogAct Unit := do
  readHead D
  installTrans D true  -- if committed, copy from log to disk
  call (.setLh [])
  writeHead D  -- clear the log

/-- `begin_op`. -/
def beginOp : Prog LogAct Unit := call .beginOp

/-- One turn of the loop of `write_log`. -/
def writeLogBlock (tail : Nat) : Prog LogAct Unit := do
  let toBuf ← bread D.dev (D.start + tail + 1)  -- log block
  let lh ← call .getLh
  let fromBuf ← bread D.dev (lh.getD tail 0)  -- cache block
  let data ← call (.getData fromBuf)
  call (.setData toBuf data)
  bwrite toBuf  -- write the log
  brelse fromBuf
  brelse toBuf

/-- `write_log`. -/
def writeLog : Prog LogAct Unit := do
  let lh ← call .getLh
  Prog.each (List.range lh.length) (writeLogBlock D)

/-- `commit`. -/
def commit : Prog LogAct Unit := do
  let lh ← call .getLh
  if lh.length > 0 then do
    writeLog D  -- write modified blocks from cache to log
    writeHead D  -- write header to disk: the real commit
    installTrans D false  -- now install writes to home locations
    call (.setLh [])
    writeHead D  -- erase the transaction from the log
  else pure ()

/-- `end_op`. -/
def endOp : Prog LogAct Unit := do
  let doCommit ← call .endOp
  if doCommit then do
    commit D
    call .endCommit
  else pure ()

/-- `log_write`. -/
def logWrite (i : Nat) : Prog LogAct Unit := call (.logWrite i)

end Code

/-! ## The clients -/

/-- A buffer that a client holds: the block, the contents that the client stored and did not pass
to `log_write` yet, and if it passed the buffer to `log_write`. -/
structure Held where
  b : Nat
  dirty : Option Block := none
  wrote : Bool := false

/-- A client between two calls: if it is inside `begin_op`/`end_op`, and the buffers it holds. -/
structure LogClient where
  inOp : Bool := false
  locks : Nat → Option Held := fun _ => none

namespace LogClient

/-- The client with `l` for buffer `i`. -/
def set (c : LogClient) (i : Nat) (l : Option Held) : LogClient :=
  { c with locks := Function.update c.locks i l }

variable (D : LogDev) (c : LogClient)

/-! The calls: the code, and the client's data after it. -/

def bread (b : Nat) : Prog LogAct LogClient := do
  let i ← Code.bread D.dev b
  pure (c.set i (some { b }))

/-- The client stores `d` to the data of buffer `i`. -/
def modify (i : Nat) (l : Held) (d : Block) : Prog LogAct LogClient := do
  Prog.call (.setData i d)
  pure (c.set i (some { l with dirty := some d }))

def logWrite (i : Nat) (l : Held) : Prog LogAct LogClient := do
  Code.logWrite i
  pure (c.set i (some { l with dirty := none, wrote := true }))

def brelse (i : Nat) : Prog LogAct LogClient := do
  Code.brelse i
  pure (c.set i none)

def beginOp : Prog LogAct LogClient := do
  Code.beginOp
  pure { c with inOp := true }

def endOp : Prog LogAct LogClient := do
  Code.endOp D
  pure { c with inOp := false }

end LogClient

/-- The calls that a client makes. Any thread reads any block. A buffer is changed only inside an
operation, and passed to `log_write` before it is released. The blocks of the log area are not for
clients to change. -/
inductive LogCall (D : LogDev) (c : LogClient) : Prog LogAct LogClient → Prop where
  | bread (b : Nat) (hb : b < 2 ^ 32) : LogCall D c (c.bread D b)
  | modify (i : Nat) (l : Held) (d : Block) (hl : c.locks i = some l) (ho : c.inOp = true)
      (hb : D.home l.b) : LogCall D c (c.modify i l d)
  | logWrite (i : Nat) (l : Held) (hl : c.locks i = some l) (ho : c.inOp = true)
      (hb : D.home l.b) : LogCall D c (c.logWrite i l)
  | brelse (i : Nat) (l : Held) (hl : c.locks i = some l) (hd : l.dirty = none) :
      LogCall D c (c.brelse i)
  | beginOp (ho : c.inOp = false) : LogCall D c c.beginOp
  | endOp (ho : c.inOp = true) : LogCall D c (c.endOp D)

/-- Any number of clients, any interleaving. -/
def LogSys (D : LogDev) : Sys LogAct LogSt Panic LogClient where
  exec := logExec
  call := fun _ _ c p => LogCall D c p

/-- All threads idle, in the state `s`. -/
def LogSt.idle (s : LogSt) : Conf LogAct LogSt LogClient := ⟨s, fun _ => .idle {}⟩

/-! ## Crashes -/

/-- A boot from the disk `d` ends in the state `s`: `recover_from_log` runs to its end, or the
machine crashes in the middle of it and boots from the disk that this leaves. -/
inductive RecoversTo (D : LogDev) : (Nat → Block) → LogSt → Prop where
  | done {d : Nat → Block} {s : LogSt}
      (h : Prog.Steps logExec 0 (Code.recoverFromLog D) { disk := d } (.ret ()) s) : RecoversTo D d s
  | crash {d : Nat → Block} {p : Prog LogAct Unit} {s₁ s : LogSt}
      (h : Prog.Steps logExec 0 (Code.recoverFromLog D) { disk := d } p s₁)
      (hr : RecoversTo D s₁.disk s) : RecoversTo D d s

/-- The states after a boot: the first one from an image with an empty log, and each later one
after the machine ran for a while and crashed. -/
inductive Booted (D : LogDev) : LogSt → Prop where
  | mkfs {d : Nat → Block} {s : LogSt} (hd : Hdr.read (d D.start) = []) (h : RecoversTo D d s) :
      Booted D s
  | again {s₀ s : LogSt} {c : Conf LogAct LogSt LogClient} (h₀ : Booted D s₀)
      (hc : (LogSys D).Reach s₀.idle c) (h : RecoversTo D c.st.disk s) : Booted D s

end Xv6
