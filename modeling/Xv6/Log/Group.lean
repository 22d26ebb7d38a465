import Xv6.Bio.Contents
import Xv6.Lib.Transition

/-!
# Group — processes that share the log of `kernel/log.c`

Any number of processes run file system operations between `begin_op` and `end_op`, read and change
blocks through the buffer cache and call `log_write`; the last one to call `end_op` runs `commit`
while the others go on.  One step is a section under `log.lock` or `bcache.lock`, a wait for a
buffer's sleep lock, or a disk transfer.

`commit` is a program counter of the process that runs it: `write_log` and `install_trans` are the
same loop over `tail` with the roles of the two buffers exchanged, and `write_head` runs twice.
A `memmove` and the `bwrite` behind it are one step: the process holds both buffers meanwhile.
-/

namespace Xv6.Group

open Lib Log Bio

/-! ## State -/

/-- The panics of `log.c` and `bio.c`. -/
inductive Panic where
  | noBuffers
  | bwrite
  | brelse
  | tooBig
  | outsideTrans
  | committing
  deriving DecidableEq

/-- The two loops of `commit`. -/
inductive Phase where
  | writeLog
  | installTrans
  deriving DecidableEq

/-- Where a process stands in `commit`. -/
inductive Pc where
  /-- About to test `log.lh.n > 0`. -/
  | check
  /-- About to test `tail < log.lh.n`. -/
  | loop (ph : Phase) (tail : Nat)
  /-- `bread` of the log block has been called. -/
  | gotLog (ph : Phase) (tail : Nat)
  /-- `bread` of the home block has been called. -/
  | gotHome (ph : Phase) (tail : Nat) (l : BufId)
  | unpin (tail : Nat) (l h : BufId)
  /-- About to release the first of two buffers. -/
  | rel (ph : Phase) (tail : Nat) (a b : BufId)
  | rel2 (ph : Phase) (tail : Nat) (b : BufId)
  /-- In `write_head`, the first time or the last. -/
  | head (last : Bool)
  | gotHead (last : Bool)
  | relHead (last : Bool) (b : BufId)
  /-- About to set `log.lh.n = 0`. -/
  | clear
  /-- About to clear `log.committing`. -/
  | done
  deriving DecidableEq

structure State where
  bio : Bio.State
  outstanding : Int
  committing : Bool
  lh : Logheader
  /-- The process is between the return of `begin_op` and its call of `end_op`. -/
  op : Slot → Bool
  pc : Slot → Option Pc
  panic : Option Panic

/-! ## The functions of `log.c` -/

namespace State

/-- A system without recovered blocks in its cache. -/
def boot (d : Disk) : State where
  bio := .binit d
  outstanding := 0
  committing := false
  lh := { block := [], fits := Nat.zero_le _ }
  op _ := false
  pc _ := none
  panic := none

def goto (s : State) (p : Slot) (pc : Pc) : State :=
  { s with pc := Function.update s.pc p (some pc) }

/-- One round of `begin_op`: a process that is not admitted sleeps and tries again. -/
def beginOp (s : State) (p : Slot) : State :=
  if s.committing then
    s
  else if (s.lh.block.length : Int) + (s.outstanding + 1) * MAXOPBLOCKS > LOGSIZE then
    s
  else
    { s with outstanding := s.outstanding + 1, op := Function.update s.op p true }

/-- `end_op` up to the call of `commit`. -/
def endOp (s : State) (p : Slot) : State :=
  let t := { s with outstanding := s.outstanding - 1, op := Function.update s.op p false }
  if t.committing then
    { t with panic := some .committing }
  else if t.outstanding = 0 then
    { t with committing := true }.goto p .check
  else
    t

/-- `log_write`: an entry that is already there absorbs the write. -/
def logWrite (A : LogArea) (s : State) (b : BufId) : State :=
  if h : s.lh.block.length ≥ LOGSIZE ∨ s.lh.block.length + 1 ≥ A.size then
    { s with panic := some .tooBig }
  else if s.outstanding < 1 then
    { s with panic := some .outsideTrans }
  else if (s.bio.buf b).blockno ∈ s.lh.block then
    s
  else
    { s with
      bio := s.bio.bpin b
      lh :=
        { block := s.lh.block ++ [(s.bio.buf b).blockno]
          fits := by
            simp only [List.length_append, List.length_singleton]
            omega } }

/-! ## Calls into `bio.c` -/

def bread (s : State) (p : Slot) (dev : UInt32) (n : BlockNo) : State :=
  match s.bio.bget p dev n with
  | some bio => { s with bio := bio }
  | none => { s with panic := some .noBuffers }

def bwrite (s : State) (p : Slot) (b : BufId) : State :=
  if s.bio.holdingsleep p b then
    { s with bio := s.bio.bwrite b }
  else
    { s with panic := some .bwrite }

def brelse (s : State) (p : Slot) (b : BufId) : State :=
  if s.bio.holdingsleep p b then
    { s with bio := s.bio.releasesleep p b }
  else
    { s with panic := some .brelse }

/-- Stores to `b->data` and `bwrite(b)`. -/
def put (s : State) (p : Slot) (b : BufId) (data : Block) : State :=
  { s with bio := s.bio.store b data }.bwrite p b

/-- The next step of the process in `commit`.  `ret` is what its last `bread` returned. -/
def commitStep (A : LogArea) (s : State) (p : Slot) : Pc → State
  | .check =>
    if 0 < s.lh.block.length then s.goto p (.loop .writeLog 0) else s.goto p .done
  | .loop ph tail =>
    if tail < s.lh.block.length then
      (s.bread p ROOTDEV (A.block (tail + 1))).goto p (.gotLog ph tail)
    else
      match ph with
      | .writeLog => s.goto p (.head false)
      | .installTrans => s.goto p .clear
  | .gotLog ph tail =>
    (s.bread p ROOTDEV (s.lh.block.getD tail 0)).goto p (.gotHome ph tail (s.bio.thread p).ret)
  | .gotHome .writeLog tail l =>
    let h := (s.bio.thread p).ret
    (s.put p l (s.bio.buf h).data).goto p (.rel .writeLog tail h l)
  | .gotHome .installTrans tail l =>
    let h := (s.bio.thread p).ret
    (s.put p h (s.bio.buf l).data).goto p (.unpin tail l h)
  | .unpin tail l h =>
    { s with bio := s.bio.bunpin h }.goto p (.rel .installTrans tail l h)
  | .rel ph tail a b => (s.brelse p a).goto p (.rel2 ph tail b)
  | .rel2 ph tail b => (s.brelse p b).goto p (.loop ph (tail + 1))
  | .head last => (s.bread p ROOTDEV (A.block 0)).goto p (.gotHead last)
  | .gotHead last =>
    let b := (s.bio.thread p).ret
    (s.put p b (setHead (s.bio.buf b).data s.lh.block)).goto p (.relHead last b)
  | .relHead last b =>
    (s.brelse p b).goto p (if last then .done else .loop .installTrans 0)
  | .clear => { s with lh := { block := [], fits := Nat.zero_le _ } }.goto p (.head true)
  | .done => { s with committing := false, pc := Function.update s.pc p none }

end State

/-! ## Steps -/

inductive Act where
  | beginOp (p : Slot)
  | endOp (p : Slot)
  | logWrite (p : Slot) (b : BufId)
  | bread (p : Slot) (dev : UInt32) (n : BlockNo)
  | store (p : Slot) (b : BufId) (data : Block)
  | brelse (p : Slot) (b : BufId)
  | acquiresleep (p : Slot)
  | fill (p : Slot)
  | drop (p : Slot)
  | commit (p : Slot)

/-- The process is in no call of `bio.c` or `log.c`. -/
def Idle (s : State) (p : Slot) : Prop :=
  s.panic = none ∧ s.pc p = none ∧ (s.bio.thread p).io = none

instance (s : State) (p : Slot) : Decidable (Idle s p) :=
  inferInstanceAs (Decidable (_ ∧ _))

/-- Let a process go on with a call of `bio.c`. -/
def advance (s : State) (f : Bio.State → Option Bio.State) : Option State :=
  if s.panic = none then (f s.bio).map fun bio => { s with bio := bio } else none

/-- The step function; a panic ends the run. -/
def step (A : LogArea) (s : State) : Act → Option State
  | .beginOp p => if Idle s p then some (s.beginOp p) else none
  | .endOp p => if Idle s p then some (s.endOp p) else none
  | .logWrite p b => if Idle s p then some (s.logWrite A b) else none
  | .bread p dev n => if Idle s p then some (s.bread p dev n) else none
  | .store p b data =>
    if Idle s p then some { s with bio := s.bio.store b data } else none
  | .brelse p b => if Idle s p then some (s.brelse p b) else none
  | .acquiresleep p => advance s fun bio => bio.acquiresleep p
  | .fill p => advance s fun bio => bio.fill p
  | .drop p => advance s fun bio => bio.drop p
  | .commit p =>
    if s.panic = none ∧ (s.bio.thread p).io = none then
      (s.pc p).map fun pc => s.commitStep A p pc
    else
      none

/-! ## Inversion -/

/-- Everything a step can do. -/
inductive Steps (A : LogArea) (s : State) : Act → State → Prop where
  | beginOp {p : Slot} (hidle : Idle s p) : Steps A s (.beginOp p) (s.beginOp p)
  | endOp {p : Slot} (hidle : Idle s p) : Steps A s (.endOp p) (s.endOp p)
  | logWrite {p : Slot} {b : BufId} (hidle : Idle s p) : Steps A s (.logWrite p b) (s.logWrite A b)
  | bread {p : Slot} {dev : UInt32} {n : BlockNo} (hidle : Idle s p) :
      Steps A s (.bread p dev n) (s.bread p dev n)
  | store {p : Slot} {b : BufId} {data : Block} (hidle : Idle s p) :
      Steps A s (.store p b data) { s with bio := s.bio.store b data }
  | brelse {p : Slot} {b : BufId} (hidle : Idle s p) : Steps A s (.brelse p b) (s.brelse p b)
  | acquiresleep {p : Slot} {bio : Bio.State} (hpanic : s.panic = none)
      (h : s.bio.acquiresleep p = some bio) : Steps A s (.acquiresleep p) { s with bio := bio }
  | fill {p : Slot} {bio : Bio.State} (hpanic : s.panic = none) (h : s.bio.fill p = some bio) :
      Steps A s (.fill p) { s with bio := bio }
  | drop {p : Slot} {bio : Bio.State} (hpanic : s.panic = none) (h : s.bio.drop p = some bio) :
      Steps A s (.drop p) { s with bio := bio }
  | commit {p : Slot} {pc : Pc} (hpanic : s.panic = none) (hio : (s.bio.thread p).io = none)
      (hpc : s.pc p = some pc) : Steps A s (.commit p) (s.commitStep A p pc)

theorem advance_eq_some {s t : State} {f : Bio.State → Option Bio.State}
    (h : advance s f = some t) :
    s.panic = none ∧ ∃ bio, f s.bio = some bio ∧ t = { s with bio := bio } := by
  unfold advance at h
  split at h
  · rcases Option.map_eq_some_iff.1 h with ⟨bio, hbio, rfl⟩
    exact ⟨‹_›, bio, hbio, rfl⟩
  · cases h

theorem steps_of_step {A : LogArea} {s t : State} {a : Act} (h : step A s a = some t) :
    Steps A s a t := by
  cases a with
  | acquiresleep p =>
    rcases advance_eq_some (by simpa only [step] using h) with ⟨hpanic, bio, hbio, rfl⟩
    exact .acquiresleep hpanic hbio
  | fill p =>
    rcases advance_eq_some (by simpa only [step] using h) with ⟨hpanic, bio, hbio, rfl⟩
    exact .fill hpanic hbio
  | drop p =>
    rcases advance_eq_some (by simpa only [step] using h) with ⟨hpanic, bio, hbio, rfl⟩
    exact .drop hpanic hbio
  | commit p =>
    simp only [step] at h
    split at h
    · rename_i hguard
      rcases Option.map_eq_some_iff.1 h with ⟨pc, hpc, rfl⟩
      exact .commit hguard.1 hguard.2 hpc
    · cases h
  | beginOp p | endOp p | logWrite p b | bread p dev n | store p b data | brelse p b =>
    simp only [step] at h
    split at h
    · cases h
      constructor
      assumption
    · cases h

end Xv6.Group
