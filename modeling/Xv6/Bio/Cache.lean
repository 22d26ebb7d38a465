import Xv6.Lib.Families
import Xv6.Log.Commit

/-!
# Cache — the buffer cache of `kernel/bio.c`

The functions of `bio.c` are cut at the points where a process can lose the CPU with the cache in a
state that others see: `bget` up to the release of `bcache.lock`, the wait in `acquiresleep`, the
rest of `bread`, and `brelse` before and after it takes `bcache.lock`.  `Io` says where a process
stands between two of these pieces.

A buffer's sleep lock is shown as the process that holds it.  `virtio_disk_rw` looks at the block
number only, never at the device.
-/

namespace Xv6.Bio

open Lib Log

/-! ## Buffers and their users -/

/-- A pointer into `bcache.buf[NBUF]`. -/
abbrev BufId : Type := Fin NBUF

/-- `struct buf`. -/
structure Buf where
  valid : Bool
  dev : UInt32
  blockno : BlockNo
  lock : Option Slot
  refcnt : Int
  data : Block

/-- A call of `bread` or `brelse` in progress. -/
inductive Io where
  /-- `bget` has chosen the buffer; `acquiresleep` waits for its lock. -/
  | wait (dev : UInt32) (blockno : BlockNo) (b : BufId)
  /-- `bget` has returned; `bread` is about to look at `b->valid`. -/
  | fill (dev : UInt32) (blockno : BlockNo) (b : BufId)
  /-- `brelse` has released the sleep lock and is about to drop its reference. -/
  | drop (b : BufId)
  deriving DecidableEq

def Io.target : Io → BufId
  | .wait _ _ b => b
  | .fill _ _ b => b
  | .drop b => b

/-- What a process has to do with the cache: the buffers `bread` has returned to it and it has not
yet passed to `brelse`, the call it is in, and the value its last `bread` returned. -/
structure Thread where
  held : List BufId
  io : Option Io
  ret : BufId

/-- `bcache`, the disk behind it, and the processes. -/
structure State where
  buf : BufId → Buf
  /-- The list from `head.next` to `head.prev`, the most recently used buffer first. -/
  lru : List BufId
  mem_lru : ∀ b, b ∈ lru
  nodup_lru : lru.Nodup
  disk : Disk
  thread : Slot → Thread

namespace State

def setBuf (s : State) (b : BufId) (x : Buf) : State :=
  { s with buf := Function.update s.buf b x }

def setThread (s : State) (p : Slot) (th : Thread) : State :=
  { s with thread := Function.update s.thread p th }

/-- `binit` on zeroed memory: each buffer is put in front of the ones before it. -/
def binit (d : Disk) : State where
  buf _ := { valid := false, dev := 0, blockno := 0, lock := none, refcnt := 0, data := fun _ => 0 }
  lru := (List.finRange NBUF).reverse
  mem_lru := by simp
  nodup_lru := by simpa using List.nodup_finRange NBUF
  disk := d
  thread _ := { held := [], io := none, ret := 0 }

/-! ## `bread` -/

/-- The first loop of `bget`: the buffer that caches the block. -/
def cached (s : State) (dev : UInt32) (blockno : BlockNo) : Option BufId :=
  s.lru.find? fun b => (s.buf b).dev = dev ∧ (s.buf b).blockno = blockno

/-- The second loop of `bget`: the least recently used buffer that nobody refers to. -/
def unused (s : State) : Option BufId :=
  s.lru.reverse.find? fun b => (s.buf b).refcnt = 0

/-- `bget` up to `acquiresleep`.  There is no result where it panics with `bget: no buffers`. -/
def bget (s : State) (p : Slot) (dev : UInt32) (blockno : BlockNo) : Option State :=
  match s.cached dev blockno with
  | some b =>
    some ((s.setBuf b { s.buf b with refcnt := (s.buf b).refcnt + 1 }).setThread p
      { s.thread p with io := some (.wait dev blockno b) })
  | none =>
    match s.unused with
    | some b =>
      some ((s.setBuf b
        { s.buf b with dev := dev, blockno := blockno, valid := false, refcnt := 1 }).setThread p
          { s.thread p with io := some (.wait dev blockno b) })
    | none => none

/-- `acquiresleep(&b->lock)` in `bget`; it has no result while another process holds the lock. -/
def acquiresleep (s : State) (p : Slot) : Option State :=
  match (s.thread p).io with
  | some (.wait dev blockno b) =>
    if (s.buf b).lock = none then
      some ((s.setBuf b { s.buf b with lock := some p }).setThread p
        { s.thread p with io := some (.fill dev blockno b) })
    else
      none
  | _ => none

/-- The buffer once `bread` has read the disk, if it has to. -/
def filled (s : State) (b : BufId) : Buf :=
  if (s.buf b).valid then
    s.buf b
  else
    { s.buf b with data := s.disk (s.buf b).blockno, valid := true }

/-- The end of `bread`. -/
def fill (s : State) (p : Slot) : Option State :=
  match (s.thread p).io with
  | some (.fill _ _ b) =>
    some ((s.setBuf b (s.filled b)).setThread p
      { held := b :: (s.thread p).held, io := none, ret := b })
  | _ => none

/-! ## `bwrite`, `brelse`, `bpin`, `bunpin` -/

/-- `holdingsleep(&b->lock)`. -/
def holdingsleep (s : State) (p : Slot) (b : BufId) : Bool :=
  (s.buf b).lock = some p

/-- Stores to `b->data`. -/
def store (s : State) (b : BufId) (data : Block) : State :=
  s.setBuf b { s.buf b with data := data }

/-- `bwrite` after its check. -/
def bwrite (s : State) (b : BufId) : State :=
  { s with disk := Function.update s.disk (s.buf b).blockno (s.buf b).data }

/-- `brelse` after its check, up to the release of the sleep lock. -/
def releasesleep (s : State) (p : Slot) (b : BufId) : State :=
  (s.setBuf b { s.buf b with lock := none }).setThread p
    { s.thread p with held := (s.thread p).held.erase b, io := some (.drop b) }

/-- Move a buffer to the front of the list. -/
def touch (s : State) (b : BufId) : State :=
  { s with
    lru := b :: s.lru.erase b
    mem_lru := by
      intro c
      by_cases h : c = b
      · simp [h]
      · exact List.mem_cons_of_mem _ ((List.mem_erase_of_ne h).2 (s.mem_lru c))
    nodup_lru := by
      refine List.nodup_cons.2 ⟨?_, s.nodup_lru.erase b⟩
      exact fun h => absurd rfl ((List.Nodup.mem_erase_iff s.nodup_lru).1 h).1 }

/-- The end of `brelse`. -/
def drop (s : State) (p : Slot) : Option State :=
  match (s.thread p).io with
  | some (.drop b) =>
    let t := (s.setBuf b { s.buf b with refcnt := (s.buf b).refcnt - 1 }).setThread p
      { s.thread p with io := none }
    some (if (t.buf b).refcnt = 0 then t.touch b else t)
  | _ => none

def bpin (s : State) (b : BufId) : State :=
  s.setBuf b { s.buf b with refcnt := (s.buf b).refcnt + 1 }

def bunpin (s : State) (b : BufId) : State :=
  s.setBuf b { s.buf b with refcnt := (s.buf b).refcnt - 1 }

end State

end Xv6.Bio
