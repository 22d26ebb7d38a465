import Xv6.Lib.Transition
import Xv6.Mem.Kalloc

/-!
# Freemem — counting free pages without the lock

`freemem` follows the free list and does not take `kmem.lock`, while other CPUs run `kalloc` and
`kfree`.  A step of another CPU is one store to the list, or `memset` of a page.

The walk is lost when `kalloc` takes the page it stands at.  Nothing else disturbs it: `kfree` and
the other calls of `kalloc` change the list in front of it.
-/

namespace Xv6.Freemem

open Lib Kalloc
open Function (update update_apply update_of_ne update_self)

/-! ## The code -/

/-- Where a CPU stands in `kalloc` or `kfree`. -/
inductive Pc
  | idle
  /-- `kalloc` holds the lock and has read `kmem.freelist`. -/
  | allocTake (r : Nat)
  /-- `kalloc` has unlinked `r` and has still to fill it. -/
  | allocFill (r : Nat)
  /-- `kfree` has filled `r` and has still to take the lock. -/
  | freeLock (r : Nat)
  /-- `kfree` holds the lock and has set `r->next`. -/
  | freeLink (r : Nat)
  deriving DecidableEq

structure St where
  mem : Nat → Nat
  freelist : Nat
  /-- The CPU that holds `kmem.lock`. -/
  lock : Option Cpu
  pc : Cpu → Pc
  /-- The pages that `kalloc` has returned and that have not been given back. -/
  owned : Nat → Bool
  /-- The variables of `freemem`. -/
  r : Nat
  num : Nat

inductive Act
  /-- `kalloc`: `acquire(&kmem.lock); r = kmem.freelist` -/
  | take (c : Cpu)
  /-- `kalloc`: `kmem.freelist = r->next; release(&kmem.lock)` -/
  | unlink (c : Cpu)
  /-- `kalloc`: `memset(r, 5, PGSIZE)` -/
  | fill (c : Cpu)
  /-- `kfree(pa)`: `memset(pa, 1, PGSIZE)` -/
  | free (c : Cpu) (pa : Nat)
  /-- `kfree`: `acquire(&kmem.lock); r->next = kmem.freelist` -/
  | next (c : Cpu)
  /-- `kfree`: `kmem.freelist = r; release(&kmem.lock)` -/
  | link (c : Cpu)
  /-- The owner of a page writes to it. -/
  | write (pa v : Nat)
  /-- `freemem`: `r = r->next; num++` -/
  | walk

variable (kend : KernelEnd)

def step (s : St) : Act → Option St
  | .take c =>
    if s.pc c = .idle ∧ s.lock = none then
      some { s with lock := some c, pc := update s.pc c (.allocTake s.freelist) }
    else
      none
  | .unlink c =>
    match s.pc c with
    | .allocTake r =>
      if r ≠ 0 then
        some { s with
          lock := none, freelist := s.mem r, pc := update s.pc c (.allocFill r) }
      else
        some { s with lock := none, pc := update s.pc c .idle }
    | _ => none
  | .fill c =>
    match s.pc c with
    | .allocFill r =>
      some { s with
        mem := memset s.mem r 5
        owned := update s.owned r true
        pc := update s.pc c .idle }
    | _ => none
  | .free c pa =>
    if s.pc c = .idle ∧ s.owned pa = true then
      -- panic("kfree")
      if pa % PGSIZE ≠ 0 ∨ pa < kend ∨ PHYSTOP ≤ pa then
        none
      else
        some { s with
          mem := memset s.mem pa 1
          owned := update s.owned pa false
          pc := update s.pc c (.freeLock pa) }
    else
      none
  | .next c =>
    match s.pc c with
    | .freeLock r =>
      if s.lock = none then
        some { s with
          lock := some c
          mem := update s.mem r s.freelist
          pc := update s.pc c (.freeLink r) }
      else
        none
    | _ => none
  | .link c =>
    match s.pc c with
    | .freeLink r =>
      some { s with lock := none, freelist := r, pc := update s.pc c .idle }
    | _ => none
  | .write pa v =>
    if s.owned pa = true then some { s with mem := update s.mem pa v } else none
  | .walk => if s.r ≠ 0 then some { s with r := s.mem s.r, num := s.num + 1 } else none

/-- A call of `freemem` begins. -/
def St.begin (s : St) : St :=
  { s with r := s.freelist, num := 0 }

/-- What `freemem` returns at the end of the loop, an `int`. -/
def St.result (s : St) : Int32 :=
  Int32.ofNat (s.num * PGSIZE)

/-- After `kinit`. -/
def boot (m : Kmem) : St where
  mem := m.mem
  freelist := m.freelist
  lock := none
  pc _ := .idle
  owned _ := false
  r := 0
  num := 0

/-! ## What a step does -/

/-- The steps with what they depend on, one constructor for each. -/
inductive Steps (s : St) : Act → St → Prop where
  | take {c : Cpu} (hpc : s.pc c = .idle) (hlock : s.lock = none) : Steps s (.take c)
        { s with lock := some c, pc := update s.pc c (.allocTake s.freelist) }
  | unlink {c : Cpu} {r : Nat} (hpc : s.pc c = .allocTake r) (hr : r ≠ 0) : Steps s (.unlink c)
        { s with lock := none, freelist := s.mem r, pc := update s.pc c (.allocFill r) }
  | empty {c : Cpu} (hpc : s.pc c = .allocTake 0) :
      Steps s (.unlink c) { s with lock := none, pc := update s.pc c .idle }
  | fill {c : Cpu} {r : Nat} (hpc : s.pc c = .allocFill r) : Steps s (.fill c) { s with
          mem := memset s.mem r 5
          owned := update s.owned r true
          pc := update s.pc c .idle }
  | free {c : Cpu} {pa : Nat} (hpc : s.pc c = .idle) (hown : s.owned pa = true) :
      Steps s (.free c pa) { s with
          mem := memset s.mem pa 1
          owned := update s.owned pa false
          pc := update s.pc c (.freeLock pa) }
  | next {c : Cpu} {r : Nat} (hpc : s.pc c = .freeLock r) (hlock : s.lock = none) :
      Steps s (.next c) { s with
          lock := some c
          mem := update s.mem r s.freelist
          pc := update s.pc c (.freeLink r) }
  | link {c : Cpu} {r : Nat} (hpc : s.pc c = .freeLink r) : Steps s (.link c)
        { s with lock := none, freelist := r, pc := update s.pc c .idle }
  | write {pa v : Nat} (hown : s.owned pa = true) :
      Steps s (.write pa v) { s with mem := update s.mem pa v }
  | walk (hr : s.r ≠ 0) : Steps s .walk { s with r := s.mem s.r, num := s.num + 1 }

variable {kend} {s t : St} {a : Act} {p q : Nat}

theorem steps_of_step (h : step kend s a = some t) : Steps s a t := by
  cases a with
  | take c | write pa v | walk =>
    simp only [step] at h
    split at h
    · rename_i hcond
      cases h
      first | exact .take hcond.1 hcond.2 | exact .write hcond | exact .walk hcond
    · cases h
  | unlink c =>
    simp only [step] at h
    split at h
    · rename_i r hpc
      split at h
      · rename_i hr
        cases h
        exact .unlink hpc hr
      · rename_i hr
        cases h
        rw [not_not.1 hr] at hpc
        exact .empty hpc
    · cases h
  | fill c | link c =>
    simp only [step] at h
    split at h
    · rename_i r hpc
      cases h
      first | exact .fill hpc | exact .link hpc
    · cases h
  | free c pa =>
    simp only [step] at h
    split at h
    · rename_i hcond
      split at h
      · cases h
      · cases h
        exact .free hcond.1 hcond.2
    · cases h
  | next c =>
    simp only [step] at h
    split at h
    · rename_i r hpc
      split at h
      · rename_i hlock
        cases h
        exact .next hpc hlock
      · cases h
    · cases h

/-! ## Calls that nothing interrupts -/

/-- What `kernel/kalloc.c` keeps. -/
def St.kmem (s : St) : Kmem :=
  ⟨s.mem, s.freelist⟩

/-- The steps of `kalloc` in a row do what the call does at once. -/
theorem run_kalloc {c : Cpu} (hpc : s.pc c = .idle) (hlock : s.lock = none) :
    (run (step kend) s (if s.freelist ≠ 0 then [.take c, .unlink c, .fill c]
      else [.take c, .unlink c])).map St.kmem = some (kalloc s.kmem).2 := by
  by_cases hfree : s.freelist = 0 <;>
    simp [run, step, kalloc, St.kmem, hpc, hlock, hfree]

/-- The same for `kfree`, down to its panic. -/
theorem run_kfree {c : Cpu} {pa : Nat} (hpc : s.pc c = .idle) (hlock : s.lock = none)
    (hown : s.owned pa = true) :
    (run (step kend) s [.free c pa, .next c, .link c]).map St.kmem = kfree kend s.kmem pa := by
  by_cases hpage : pa % PGSIZE ≠ 0 ∨ pa < kend ∨ PHYSTOP ≤ pa
  · simp [run, step, kfree, hpc, hown, hpage]
  · simp [run, step, kfree, St.kmem, hpc, hlock, hown, hpage]

/-! ## Where the pages are -/

/-- The page that a call holds. -/
def Pc.page : Pc → Option Nat
  | .allocFill r | .freeLock r | .freeLink r => some r
  | _ => none

/-- A page belongs to the call or to the owner that has it, and is on the list otherwise. -/
structure Apart (kend : KernelEnd) (s : St) (l : List Nat) : Prop where
  list : FreeList kend s.mem s.freelist l
  owned : ∀ p, s.owned p = true → IsPage kend p ∧ p ∉ l
  held : ∀ c p, (s.pc c).page = some p → IsPage kend p ∧ p ∉ l ∧ s.owned p = false
  unique : ∀ c c' p, (s.pc c).page = some p → (s.pc c').page = some p → c = c'
  take : ∀ c r, s.pc c = .allocTake r → s.lock = some c ∧ r = s.freelist
  link : ∀ c r, s.pc c = .freeLink r → s.lock = some c ∧ s.mem r = s.freelist

/-- What a step makes of the list: it stays, or a page is put in front of it or taken from there. -/
inductive Change (s : St) (a : Act) : List Nat → List Nat → Prop where
  | same {l : List Nat} : Change s a l l
  | push {c : Cpu} {p : Nat} {l : List Nat} (ha : a = .link c) : Change s a l (p :: l)
  | pop {c : Cpu} {p : Nat} {l : List Nat} (ha : a = .unlink c) (hpc : s.pc c = .allocTake p) :
      Change s a (p :: l) l

variable {l : List Nat}

attribute [local grind =] update_apply Pc.page

namespace Apart

theorem frame (h : Apart kend s l) (hmem : t.mem = s.mem) (hlist : t.freelist = s.freelist)
    (howned : t.owned = s.owned) (hpage : ∀ c, (t.pc c).page = (s.pc c).page)
    (htake : ∀ c r, t.pc c = .allocTake r → t.lock = some c ∧ r = t.freelist)
    (hlink : ∀ c r, t.pc c = .freeLink r → t.lock = some c ∧ t.mem r = t.freelist) :
    Apart kend t l := by
  refine ⟨?_, ?_, fun c p => ?_, fun c c' p => ?_, htake, hlink⟩
  · rw [hmem, hlist]
    exact h.list
  · rw [howned]
    exact h.owned
  · rw [hpage, howned]
    exact h.held c p
  · rw [hpage, hpage]
    exact h.unique c c' p

theorem mem_eq (h : Apart kend s l) (hstep : Steps s a t) (hp : p ∈ l) : t.mem p = s.mem p := by
  have hpage := h.list.pages p hp
  cases hstep with
  | take | unlink | empty | link | walk => rfl
  | fill hpc =>
    rcases h.held _ _ (by rw [hpc]; rfl) with ⟨hr, hnot, -⟩
    exact memset_of_ne hr hpage (ne_of_mem_of_not_mem hp hnot)
  | free hpc hown =>
    rcases h.owned _ hown with ⟨hr, hnot⟩
    exact memset_of_ne hr hpage (ne_of_mem_of_not_mem hp hnot)
  | next hpc =>
    rcases h.held _ _ (by rw [hpc]; rfl) with ⟨hr, hnot, -⟩
    exact update_of_ne (ne_of_mem_of_not_mem hp hnot) _ _
  | write hown =>
    rcases h.owned _ hown with ⟨hr, hnot⟩
    exact update_of_ne (ne_of_mem_of_not_mem hp hnot) _ _

/-- While a CPU holds the lock no other is in the middle of a change. -/
theorem idle_of_lock (h : Apart kend s l) (hlock : s.lock = none) (c : Cpu) (r : Nat) :
    s.pc c ≠ .allocTake r ∧ s.pc c ≠ .freeLink r := by
  constructor <;> intro hpc
  · have hc := (h.take c r hpc).1
    rw [hlock] at hc
    cases hc
  · have hc := (h.link c r hpc).1
    rw [hlock] at hc
    cases hc

theorem step (h : Apart kend s l) (hstep : Steps s a t) :
    ∃ l', Apart kend t l' ∧ Change s a l l' := by
  have hmem : ∀ p ∈ l, t.mem p = s.mem p := fun p hp => h.mem_eq hstep hp
  have hlist := h.list.congr hmem
  cases hstep with
  | take hpc hlock =>
    have hidle := h.idle_of_lock hlock
    exact ⟨l, h.frame rfl rfl rfl (by grind) (by grind) (by grind), .same⟩
  | walk => exact ⟨l, h.frame rfl rfl rfl (fun _ => rfl) h.take h.link, .same⟩
  | empty hpc =>
    have htake := h.take
    have hlink := h.link
    exact ⟨l, h.frame rfl rfl rfl (by grind) (by grind) (by grind), .same⟩
  | unlink hpc hr =>
    rename_i c r
    rcases h.take c r hpc with ⟨hlock, hfirst⟩
    rcases h.list.linked.ne_nil (hfirst ▸ hr) with ⟨l', hl⟩
    rw [← hfirst] at hl
    subst hl
    rcases h.list.pop with ⟨-, hpop, hnot⟩
    have hpage := h.list.pages r List.mem_cons_self
    have hheld := h.held
    refine ⟨l', ⟨hpop, ?_, ?_, ?_, ?_, ?_⟩, .pop rfl hpc⟩
    · intro p hp
      exact ⟨(h.owned p hp).1, fun hmem => (h.owned p hp).2 (List.mem_cons_of_mem _ hmem)⟩
    · have howned := h.owned r
      grind
    · have hunique := h.unique
      grind
    · have htake := h.take
      grind
    · have hlink := h.link
      grind
  | fill hpc =>
    rename_i c r
    rcases h.held c r (by rw [hpc]; rfl) with ⟨hpage, hnot, hfree⟩
    have hunique := h.unique
    refine ⟨l, ⟨hlist, ?_, ?_, ?_, ?_, ?_⟩, .same⟩
    · have howned := h.owned
      grind
    · have hheld := h.held
      grind
    · grind
    · have htake := h.take
      grind
    · intro c' r' hpc'
      have hne : c' ≠ c := by grind
      have hpc₁ : s.pc c' = .freeLink r' := by grind
      rcases h.link c' r' hpc₁ with ⟨hlock, hnext⟩
      refine ⟨hlock, (memset_of_ne hpage (h.held c' r' (by rw [hpc₁]; rfl)).1 ?_).trans hnext⟩
      rintro rfl
      exact hne (hunique c' c r' (by rw [hpc₁]; rfl) (by rw [hpc]; rfl))
  | free hpc hown =>
    rename_i c pa
    rcases h.owned pa hown with ⟨hpage, hnot⟩
    have hheld := h.held
    refine ⟨l, ⟨hlist, ?_, ?_, ?_, ?_, ?_⟩, .same⟩
    · have howned := h.owned
      grind
    · grind
    · have hunique := h.unique
      grind
    · have htake := h.take
      grind
    · intro c' r' hpc'
      have hpc₁ : s.pc c' = .freeLink r' := by grind
      rcases h.link c' r' hpc₁ with ⟨hlock, hnext⟩
      have hr' := hheld c' r' (by rw [hpc₁]; rfl)
      refine ⟨hlock, (memset_of_ne hpage hr'.1 ?_).trans hnext⟩
      grind
  | next hpc hlock =>
    rename_i c r
    have hidle := h.idle_of_lock hlock
    refine ⟨l, ⟨hlist, h.owned, ?_, ?_, ?_, ?_⟩, .same⟩
    · have hheld := h.held
      grind
    · have hunique := h.unique
      grind
    · grind
    · grind
  | link hpc =>
    rename_i c r
    rcases h.held c r (by rw [hpc]; rfl) with ⟨hpage, hnot, hfree⟩
    rcases h.link c r hpc with ⟨hlock, hnext⟩
    refine ⟨r :: l, ⟨hlist.push hpage hnext, ?_, ?_, ?_, ?_, ?_⟩, .push rfl⟩
    · have howned := h.owned
      grind
    · have hheld := h.held
      have hunique := h.unique
      grind
    · have hunique := h.unique
      grind
    · have htake := h.take
      grind
    · have hlink := h.link
      grind
  | write hown =>
    rename_i pa v
    refine ⟨l, ⟨hlist, h.owned, h.held, h.unique, h.take, ?_⟩, .same⟩
    intro c r hpc
    rcases h.link c r hpc with ⟨hlock, hnext⟩
    have hr := h.held c r (by rw [hpc]; rfl)
    refine ⟨hlock, (update_of_ne ?_ _ _).trans hnext⟩
    rintro rfl
    rw [hown] at hr
    exact absurd hr.2.2 (by decide)

end Apart

theorem apart_boot {m : Kmem} (h : FreeList kend m.mem m.freelist l) : Apart kend (boot m) l :=
  ⟨h, nofun, nofun, nofun, nofun, nofun⟩

/-! ## The walk -/

/-- `freemem` stands at a page of the list; with the pages that are still ahead of it, it has
counted `n`. -/
def Walking (s : St) (l : List Nat) (n : Nat) : Prop :=
  ∃ passed rest, l = passed ++ rest ∧ Linked s.mem 0 s.r rest ∧ s.num + rest.length = n

/-- `kalloc` does not unlink the page at which `freemem` stands. -/
def WalkOk (s : St) : Act → Prop
  | .unlink c => s.pc c = .allocTake s.r → s.r = 0
  | _ => True

instance (s : St) (a : Act) : Decidable (WalkOk s a) := by
  cases a <;> simp only [WalkOk] <;> infer_instance

theorem Walking.step {l' : List Nat} {n : Nat} (hwalk : Walking s l n) (h : Apart kend s l)
    (hok : WalkOk s a) (hstep : Steps s a t) (hchange : Change s a l l') : Walking t l' n := by
  have hmem : ∀ p ∈ l, t.mem p = s.mem p := fun p hp => h.mem_eq hstep hp
  rcases hwalk with ⟨passed, rest, rfl, hrest, hnum⟩
  by_cases ha : a = .walk
  · subst ha
    cases hstep with
    | walk hr =>
      -- The page that is counted moves to those that have been passed.
      rcases hrest.ne_nil hr with ⟨rest', rfl⟩
      have hl : l' = passed ++ s.r :: rest' := by
        generalize passed ++ s.r :: rest' = l at hchange
        cases hchange with
        | same => rfl
        | push ha | pop ha => cases ha
      refine ⟨passed ++ [s.r], rest', by rw [hl, List.append_assoc]; rfl, hrest.tail, ?_⟩
      simp only [List.length_cons] at hnum ⊢
      omega
  · have hr : t.r = s.r ∧ t.num = s.num := by
      cases hstep with
      | walk => exact absurd rfl ha
      | _ => exact ⟨rfl, rfl⟩
    have hrest' : Linked t.mem 0 t.r rest := by
      rw [hr.1]
      exact hrest.congr fun p hp => hmem p (List.mem_append_right _ hp)
    rw [← hr.2] at hnum
    generalize hl : passed ++ rest = l at hchange
    cases hchange with
    | same => exact ⟨passed, rest, hl.symm, hrest', hnum⟩
    | push ha =>
      rename_i c p
      exact ⟨p :: passed, rest, by rw [← hl]; rfl, hrest', hnum⟩
    | pop ha hpc =>
      rename_i c p
      cases passed with
      | cons q passed' =>
        cases hl
        exact ⟨passed', rest, rfl, hrest', hnum⟩
      | nil =>
        -- Nothing has been passed: the page that goes is the one `freemem` stands at.
        rw [List.nil_append] at hl
        rw [hl] at hrest
        have hp : s.r = p := hrest.seg.1
        rw [ha] at hok
        exact absurd (hok (hp ▸ hpc)) (hp ▸ fun hzero => hrest.null (hzero ▸ List.mem_cons_self))

/-- The pages and the walk along them. -/
def Inv (kend : KernelEnd) (n : Nat) (s : St) : Prop :=
  ∃ l, Apart kend s l ∧ Walking s l n

theorem inv_step {n : Nat} (h : Inv kend n s) (hok : WalkOk s a) (hstep : step kend s a = some t) :
    Inv kend n t := by
  rcases h with ⟨l, hapart, hwalk⟩
  have hsteps := steps_of_step hstep
  rcases hapart.step hsteps with ⟨l', hapart', hchange⟩
  exact ⟨l', hapart', hwalk.step hapart hok hsteps hchange⟩

theorem apart_of_reaches {mem : Nat → Nat} {m : Kmem} (hm : kinit kend mem = some m)
    (h : Reaches (step kend) anyStep (boot m) s) : ∃ l, Apart kend s l := by
  refine h.invariant (P := fun s => ∃ l, Apart kend s l) ?_ ?_
  · rcases kinit_spec kend mem with ⟨m', l, hm', hlist, -⟩
    rw [hm] at hm'
    cases hm'
    exact ⟨l, apart_boot hlist⟩
  · rintro s a t ⟨l, hl⟩ - hstep
    rcases hl.step (steps_of_step hstep) with ⟨l', hl', -⟩
    exact ⟨l', hl'⟩

theorem result_eq {n : Nat} (hn : n ≤ 32768) (hnum : s.num = n) : s.result.toInt = n * PGSIZE := by
  rw [St.result, hnum, Int32.toInt_ofNat_of_lt (by simp only [PGSIZE]; omega)]
  exact Int.natCast_mul n PGSIZE

/-- As long as `kalloc` leaves the page alone at which `freemem` stands, that page is on the free
list, the walk takes as many steps as there were pages on it at the start, and it returns their
size. -/
theorem freemem_of_reaches {mem : Nat → Nat} {m : Kmem} {s₀ : St} (hm : kinit kend mem = some m)
    (h₀ : Reaches (step kend) anyStep (boot m) s₀) : ∃ l₀, FreeList kend s₀.mem s₀.freelist l₀ ∧
      ∀ s, Reaches (step kend) WalkOk s₀.begin s →
        (∃ l, FreeList kend s.mem s.freelist l ∧ (s.r = 0 ∨ s.r ∈ l)) ∧
          s.num ≤ l₀.length ∧ (s.r ≠ 0 → s.num < l₀.length ∧ ∃ t, step kend s .walk = some t) ∧
            (s.r = 0 → s.result.toInt = l₀.length * PGSIZE) := by
  rcases apart_of_reaches hm h₀ with ⟨l₀, hl₀⟩
  refine ⟨l₀, hl₀.list, fun s h => ?_⟩
  have hstart : Inv kend l₀.length s₀.begin :=
    ⟨l₀, hl₀.frame rfl rfl rfl (fun _ => rfl) hl₀.take hl₀.link, [], l₀, rfl, hl₀.list.linked,
      Nat.zero_add _⟩
  have hlen := length_le_of_nodup hl₀.list.linked.nodup hl₀.list.pages
  rcases h.invariant hstart fun s a t hinv hok hstep => inv_step hinv hok hstep with
    ⟨l, hapart, passed, rest, rfl, hrest, hnum⟩
  refine ⟨⟨_, hapart.list, ?_⟩, by omega, fun hr => ⟨?_, ?_⟩, fun hr => ?_⟩
  · by_cases hr : s.r = 0
    · exact .inl hr
    · rcases hrest.ne_nil hr with ⟨rest', rfl⟩
      exact .inr (List.mem_append_right _ List.mem_cons_self)
  · rcases hrest.ne_nil hr with ⟨rest', rfl⟩
    rw [List.length_cons] at hnum
    omega
  · exact ⟨_, if_pos hr⟩
  · rw [hr] at hrest
    rw [hrest.eq_nil, List.length_nil, Nat.add_zero] at hnum
    exact result_eq hlen hnum

/-! ## A walk that is lost -/

/-- After `kinit` of a kernel that leaves room for a page there is a first free page. -/
theorem kinit_cons (hp : IsPage kend p) (mem : Nat → Nat) : ∃ m r l, kinit kend mem = some m ∧
    FreeList kend m.mem m.freelist (r :: l) := by
  rcases kinit_spec kend mem with ⟨m, l, hm, hlist, hmem⟩
  cases l with
  | nil => exact absurd ((hmem p).2 hp) List.not_mem_nil
  | cons r l => exact ⟨m, r, l, hm, hlist⟩

/-- `kalloc` takes the first page just when `freemem` has come to it. -/
def takeRun : List Act :=
  [.take 0, .unlink 0]

/-- `kalloc` fills it, and `freemem` goes on with what it finds there. -/
def strayRun : List Act :=
  [.fill 0, .walk]

theorem takeRun_spec {m : Kmem} {r : Nat} (h : FreeList kend m.mem m.freelist (r :: l)) :
    ∃ s, run (step kend) (boot m).begin takeRun = some s ∧ Apart kend s l ∧ s.r = r ∧
      s.pc 0 = .allocFill r := by
  have hr : m.freelist = r := h.linked.seg.1
  have hne : r ≠ 0 := (h.pages r List.mem_cons_self).ne_zero
  have hrun : run (step kend) (boot m).begin takeRun = some { (boot m).begin with
      freelist := m.mem r
      pc := update (update (fun _ => .idle) 0 (.allocTake r)) 0 (.allocFill r) } := by
    simp [takeRun, run, step, boot, St.begin, hr, hne]
  refine ⟨_, hrun, ?_, hr, by simp only [update_self]⟩
  rcases h.pop with ⟨-, hpop, hnot⟩
  refine ⟨hpop, by rintro _ ⟨⟩, ?_, ?_, ?_, ?_⟩
  · have hpage := h.pages r List.mem_cons_self
    simp only [boot, St.begin]
    grind
  · grind
  · grind
  · grind

theorem strayRun_spec (h : Apart kend s l) (hpc : s.pc 0 = .allocFill s.r) (hr : s.r ≠ 0) :
    ∃ t, run (step kend) s strayRun = some t ∧ Apart kend t l ∧ t.r = 0x0505050505050505 := by
  have hfill : step kend s (.fill 0) = some { s with
      mem := memset s.mem s.r 5
      owned := update s.owned s.r true
      pc := update s.pc 0 .idle } := by
    simp only [step, hpc]
  rcases h.step (steps_of_step hfill) with ⟨l', h', hchange⟩
  have hl : l' = l := by
    cases hchange with
    | same => rfl
    | push ha | pop ha => cases ha
  subst hl
  refine ⟨_, by rw [strayRun, run, hfill, Option.bind_some, run, step, if_pos hr]; rfl, ?_, ?_⟩
  · exact h'.frame rfl rfl rfl (fun _ => rfl) h'.take h'.link
  · exact memset_self

/-- The page at which `freemem` stands is not on the list any more, and the next address it goes to
is made of fives. -/
theorem freemem_strays : ∃ m s t l, kinit ⟨0x80022000, by decide⟩ (fun _ => 0) = some m ∧
      Reaches (step ⟨0x80022000, by decide⟩) anyStep (boot m).begin s ∧
      FreeList ⟨0x80022000, by decide⟩ s.mem s.freelist l ∧ s.r ≠ 0 ∧ s.r ∉ l ∧
      Reaches (step ⟨0x80022000, by decide⟩) anyStep s t ∧
      FreeList ⟨0x80022000, by decide⟩ t.mem t.freelist l ∧ t.r = 0x0505050505050505 ∧
      t.r ∉ l := by
  have hpage : IsPage ⟨0x80022000, by decide⟩ 0x80022000 := by decide
  rcases kinit_cons hpage fun _ => 0 with ⟨m, r, l, hm, hlist⟩
  rcases takeRun_spec hlist with ⟨s, hs, hsl, hsr, hpc⟩
  have hne : s.r ≠ 0 := hsr ▸ (hlist.pages r List.mem_cons_self).ne_zero
  have hnot : s.r ∉ l := hsr ▸ hlist.pop.2.2
  rcases strayRun_spec hsl (hsr ▸ hpc) hne with ⟨t, ht, htl, htr⟩
  refine ⟨m, s, t, l, hm, .of_run_any hs, hsl.list, hne, hnot, .of_run_any ht, htl.list, htr, ?_⟩
  intro hmem
  have hhigh := (htl.list.pages _ hmem).high
  rw [htr] at hhigh
  exact absurd hhigh (by decide)

/-- `freemem` counts a page, and then `kalloc` takes it. -/
def passRun : List Act :=
  [.walk, .take 0, .unlink 0]

theorem passRun_spec {m : Kmem} {r : Nat} (h : FreeList kend m.mem m.freelist (r :: l)) :
    ∃ s, runIf (step kend) WalkOk (boot m).begin passRun = some s ∧ s.num = 1 := by
  have hr : m.freelist = r := h.linked.seg.1
  have hne : r ≠ 0 := (h.pages r List.mem_cons_self).ne_zero
  have hnext : m.mem r ≠ r := by
    intro heq
    have htail := h.linked.tail
    rw [heq] at htail
    rcases htail.ne_nil hne with ⟨l', rfl⟩
    exact h.pop.2.2 List.mem_cons_self
  have hrun : runIf (step kend) WalkOk (boot m).begin passRun = some { (boot m).begin with
      freelist := m.mem r
      pc := update (update (fun _ => .idle) 0 (.allocTake r)) 0 (.allocFill r)
      r := m.mem r
      num := 1 } := by
    simp [passRun, runIf, step, WalkOk, boot, St.begin, hr, hne, hnext.symm]
  exact ⟨_, hrun, rfl⟩

theorem freemem_of_reaches_pass : ∃ m s l₀, kinit ⟨0x80022000, by decide⟩ (fun _ => 0) = some m ∧
      Reaches (step ⟨0x80022000, by decide⟩) WalkOk (boot m).begin s ∧ s.num = 1 ∧
      (∃ l, FreeList ⟨0x80022000, by decide⟩ s.mem s.freelist l ∧ (s.r = 0 ∨ s.r ∈ l)) ∧
      (s.r = 0 → s.result.toInt = l₀ * PGSIZE) := by
  have hpage : IsPage ⟨0x80022000, by decide⟩ 0x80022000 := by decide
  rcases kinit_cons hpage fun _ => 0 with ⟨m, r, l, hm, hlist⟩
  rcases passRun_spec hlist with ⟨s, hs, hnum⟩
  rcases freemem_of_reaches hm .refl with ⟨l₀, -, hall⟩
  have hs := Reaches.of_runIf hs
  exact ⟨m, s, l₀.length, hm, hs, hnum, (hall s hs).1, (hall s hs).2.2.2⟩

end Xv6.Freemem
