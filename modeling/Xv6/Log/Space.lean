import Mathlib.Data.List.Dedup
import Xv6.Log.Isolation

/-!
# Space — when `log_write` runs out of log blocks

`begin_op` admits operations as if all `LOGSIZE` blocks of the log area could hold data, but the
first is the header, and `log_write` wants one more block to be free than it will use.  Three
operations that stay within `MAXOPBLOCKS` blocks each can therefore reach
`panic("too big a transaction")`.  It is reached exactly when `log.size - 1` distinct blocks have
been logged since the last commit.
-/

namespace Xv6.Group

open Lib Log Bio

variable {A : LogArea} {s : State}

/-- The number of distinct blocks passed to `log_write` since the last commit. -/
def Hist.distinct (h : Hist) : Nat :=
  (h.logged.map Prod.snd).dedup.length

/-- Outside a commit the header has one entry for each of them. -/
theorem length_of_covers {h : Hist} (hc : Covers s.lh.block h.logged) :
    s.lh.block.length = h.distinct := by
  refine List.Perm.length_eq ?_
  rw [List.perm_ext_iff_of_nodup hc.1 (List.nodup_dedup _)]
  intro n
  rw [hc.2 n, List.mem_dedup, List.mem_map]
  constructor
  · rintro ⟨p, hp⟩
    exact ⟨(p, n), hp, rfl⟩
  · rintro ⟨⟨p, m⟩, hp, rfl⟩
    exact ⟨p, hp⟩

/-- With the geometry of `mkfs`, `log_write` panics for lack of space exactly when at least
`log.size - 1` distinct blocks have been logged since the last commit, whatever the caller logs now;
and at all times the entries of `log.lh` have distinct data blocks of their own inside the log
area. -/
theorem log_write_space {s₀ : State} {h : Hist} (h₀ : Started s₀) (hA : A.size = LOGSIZE)
    (hs : Reaches (withHistory (step A) Hist.after) (fun x => ClientOk A x.1) (s₀, .start) (s, h)) :
    (∀ p b t, ClientOk A s (.logWrite p b) → step A s (.logWrite p b) = some t →
      (t.panic ≠ some .tooBig ↔ h.distinct ≤ LOGSIZE - 2)) ∧
      (s.panic = none → ∀ j, j < s.lh.block.length →
        (A.block (j + 1)).toNat = A.start + 1 + j ∧ A.Mem (A.block (j + 1))) := by
  rcases safe_hist h₀ hs with ⟨hsafe, hhist⟩
  refine ⟨?_, ?_⟩
  · intro p b t hok hstep
    have hpanic := panic_none_of_step hstep
    have hcore := hsafe.core hpanic
    have hnone := (hcore.ctl.no_commit hok.1).2
    have hlen : s.lh.block.length = h.distinct :=
      length_of_covers ((hhist hpanic).entries fun q pc hq => by simp [hnone] at hq)
    cases steps_of_step hstep with
    | logWrite _ =>
      rw [← hlen]
      by_cases hbig : s.lh.block.length ≥ LOGSIZE ∨ s.lh.block.length + 1 ≥ A.size
      · have hfull : ¬ s.lh.block.length ≤ LOGSIZE - 2 := by
          simp only [LOGSIZE, MAXOPBLOCKS] at hA hbig ⊢
          omega
        simp [State.logWrite, hbig, hfull]
      · have hroom : s.lh.block.length ≤ LOGSIZE - 2 := by
          simp only [LOGSIZE, MAXOPBLOCKS] at hA hbig ⊢
          omega
        have hout := hcore.ctl.outstanding_pos hok.1
        refine ⟨fun _ => hroom, fun _ => ?_⟩
        simp only [State.logWrite, hbig, hout, dite_false, if_false]
        split <;> simp [hpanic]
  · intro hpanic j hj
    have hroom := (hsafe.core hpanic).base.room j hj
    have hval := A.toNat_block hroom
    refine ⟨by omega, A.mem_block hroom⟩

/-- Process `p` reads block `100 + i` into buffer `i` and logs it. -/
def logActs (p : Slot) (i : Nat) : List Act :=
  [.bread p ROOTDEV (UInt32.ofNat (100 + i)), .acquiresleep p, .fill p, .logWrite p (Fin.ofNat _ i)]

/-- Processes 0, 1 and 2 log 28 blocks in operations that overlap, and process 2 reads another. -/
def spaceActs : List Act :=
  List.flatten [[.beginOp 0, .beginOp 1, .beginOp 2], (List.range 10).flatMap (logActs 0),
    (List.range' 10 10).flatMap (logActs 1), (List.range' 20 8).flatMap (logActs 2),
    [.bread 2 ROOTDEV 128, .acquiresleep 2, .fill 2]]

theorem log_write_space_three_ops :
    ∃ x t, runIf (withHistory (step .mkfs) Hist.after) (fun x => ClientOk .mkfs x.1)
        (.boot fun _ _ => 0, .start) spaceActs = some x ∧ x.2.distinct = LOGSIZE - 2 ∧
      step .mkfs x.1 (.logWrite 2 28) = some t ∧ t.panic ≠ some .tooBig := by
  have hrun : (runIf (withHistory (step .mkfs) Hist.after) (fun x => ClientOk .mkfs x.1)
      (.boot fun _ _ => 0, .start) spaceActs).any fun x =>
        decide (x.2.distinct = LOGSIZE - 2 ∧ ClientOk .mkfs x.1 (.logWrite 2 28) ∧
          (step .mkfs x.1 (.logWrite 2 28)).isSome = true) := by
    decide +kernel
  rcases exists_of_any hrun with ⟨x, hx, hlen, hok, hstep⟩
  rcases Option.isSome_iff_exists.1 hstep with ⟨t, ht⟩
  have hiff := (log_write_space (started_boot _) rfl (Reaches.of_runIf hx)).1 2 28 t hok ht
  exact ⟨x, t, hx, hlen, ht, hiff.2 hlen.le⟩

/-! ## Three operations of ten blocks -/

/-- The caller keeps to `MAXOPBLOCKS` distinct blocks in its operation. -/
def OpOk (A : LogArea) (x : State × Hist) (a : Act) : Prop :=
  ClientOk A x.1 a ∧
    match a with
    | .logWrite p b =>
      ((x.1.bio.buf b).blockno :: x.2.current p).dedup.length ≤ MAXOPBLOCKS
    | _ => True

instance (A : LogArea) (x : State × Hist) (a : Act) : Decidable (OpOk A x a) :=
  match a with
  | .logWrite _ _ => inferInstanceAs (Decidable (_ ∧ _ ≤ _))
  | .beginOp _ | .endOp _ | .store _ _ _ | .brelse _ _ | .bread _ _ _ | .acquiresleep _
  | .fill _ | .drop _ | .commit _ => inferInstanceAs (Decidable (_ ∧ True))

/-- Processes 0, 1 and 2 are in an operation at the same time and log ten blocks each. -/
def threeOpActs : List Act :=
  [.beginOp 0, .beginOp 1, .beginOp 2] ++ (List.range 10).flatMap (logActs 0) ++
    (List.range' 10 10).flatMap (logActs 1) ++ (List.range' 20 10).flatMap (logActs 2)

/-- The thirtieth block does not fit. -/
theorem log_write_too_big :
    ∃ x, runIf (withHistory (step .mkfs) Hist.after) (OpOk .mkfs) (.boot fun _ _ => 0, .start)
        threeOpActs = some x ∧ x.1.panic = some .tooBig := by
  have hrun : (runIf (withHistory (step .mkfs) Hist.after) (OpOk .mkfs)
      (.boot fun _ _ => 0, .start) threeOpActs).any fun x =>
        decide (x.1.panic = some .tooBig) := by
    decide +kernel
  exact exists_of_any hrun

end Xv6.Group
