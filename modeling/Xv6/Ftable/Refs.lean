import Xv6.Ftable.Model
import Xv6.Lib.Pointers
import Mathlib.Algebra.Group.Pi.Basic
import Mathlib.Algebra.Order.Group.Int
import Mathlib.Tactic.Abel

/-!
# Refs — the reference counts of the file table

In the middle of a call a file can have one reference more or less than there are descriptors for
it.  The invariant has these as an argument, and each function of the file layer shifts it by one.
-/

namespace Xv6.Ftable

open Lib Prog
open Function (update update_apply update_comm update_eq_self update_idem update_of_ne update_self)

variable {s t : St} {p q : Slot} {f g : Fp} {fd : Fin NOFILE} {x : Fp → Int}

/-! ## Updates of the state -/

namespace St

theorem putFile_self (s : St) (f : Fp) (y : File) : (s.putFile f y).file f = y :=
  update_self _ _ _

theorem putFile_of_ne (s : St) (y : File) (h : g ≠ f) : (s.putFile f y).file g = s.file g :=
  update_of_ne h _ _

theorem putFile_putFile (s : St) (f : Fp) (y z : File) :
    (s.putFile f y).putFile f z = s.putFile f z := by
  simp only [putFile, update_idem]

theorem putFile_eq_self (s : St) (f : Fp) : s.putFile f (s.file f) = s := by
  simp only [putFile, update_eq_self]

theorem putFile_comm (s : St) (y z : File) (h : g ≠ f) :
    (s.putFile f y).putFile g z = (s.putFile g z).putFile f y := by
  simp only [putFile, update_comm h]

theorem putFile_openAs (s : St) (f : Fp) (y z : File) (o : Obj) :
    (s.putFile f y).openAs f z o = s.openAs f z o := by
  simp only [openAs, putFile, update_idem]

theorem putFile_openAs_comm (s : St) (y z : File) (o : Obj) (h : g ≠ f) :
    (s.putFile g y).openAs f z o = (s.openAs f z o).putFile g y := by
  simp only [openAs, putFile, update_comm h]

theorem putOfile_self (s : St) (p : Slot) (fd : Fin NOFILE) (r : Option Fp) :
    ((s.putOfile p fd r).proc p).ofile fd = r := by
  simp only [putOfile, putProc, update_self]

theorem putOfile_of_ne (s : St) (p : Slot) (r : Option Fp) {gd : Fin NOFILE} (h : gd ≠ fd) :
    ((s.putOfile p fd r).proc p).ofile gd = (s.proc p).ofile gd := by
  simp only [putOfile, putProc, update_self, update_of_ne h]

theorem putOfile_proc (s : St) (fd : Fin NOFILE) (r : Option Fp) (h : q ≠ p) :
    (s.putOfile p fd r).proc q = s.proc q :=
  update_of_ne h _ _

theorem putOfile_state (s : St) (p q : Slot) (fd : Fin NOFILE) (r : Option Fp) :
    ((s.putOfile p fd r).proc q).state = (s.proc q).state := by
  by_cases h : q = p
  · rw [h, putOfile, putProc]
    simp only [update_self]
  · rw [putOfile_proc s fd r h]

end St

/-! ## The invariant -/

/-- All descriptors of all processes. -/
def ptr (s : St) (a : Slot × Fin NOFILE) : Option Fp :=
  (s.proc a.1).ofile a.2

/-- What `fileclose` closes with the last reference. -/
def File.obj (x : File) : Obj :=
  if x.type = .pipe then .pipe x.pipe x.writable else .inode x.ip

/-- No descriptor can be open in these states of a process. -/
def Proc.Idle (x : Proc) : Prop :=
  x.state = .UNUSED ∨ x.state = .ZOMBIE

/-- A running call has `x f` references to the file `f` for which there is no descriptor. -/
structure Inv (s : St) (x : Fp → Int) : Prop where
  ref : ∀ f, (s.file f).ref = pointers (ptr s) f + x f
  free : ∀ f, (s.file f).ref = 0 ↔ (s.file f).type = .none
  idle : ∀ p, (s.proc p).Idle → ∀ fd, (s.proc p).ofile fd = none
  obj : ∀ f, (s.file f).ref ≠ 0 → s.opened[(s.file f).serial]? = some (s.file f).obj
  serial : ∀ f g, (s.file f).ref ≠ 0 → (s.file g).ref ≠ 0 →
    (s.file f).serial = (s.file g).serial → f = g
  once : (s.closed.map Prod.fst).Nodup
  made : ∀ c ∈ s.closed, s.opened[c.1]? = some c.2
  gone : ∀ k, k < s.opened.length →
    (k ∈ s.closed.map Prod.fst ↔ ∀ f, (s.file f).ref ≠ 0 → (s.file f).serial ≠ k)

def one (f : Fp) : Fp → Int :=
  fun g => if g = f then 1 else 0

namespace Inv

theorem congr (h : Inv s x) (hfile : ∀ f, (t.file f).ref = (s.file f).ref ∧
      (t.file f).type = (s.file f).type ∧ (t.file f).obj = (s.file f).obj ∧
        (t.file f).serial = (s.file f).serial)
    (hofile : ∀ p, (t.proc p).ofile = (s.proc p).ofile)
    (hidle : ∀ p, (t.proc p).Idle → ∀ fd, (s.proc p).ofile fd = none)
    (hopened : t.opened = s.opened) (hclosed : t.closed = s.closed) : Inv t x := by
  have hptr : ptr t = ptr s := funext fun a => congrFun (hofile a.1) a.2
  rcases h with ⟨ref, free, idle, obj, serial, once, made, gone⟩
  constructor
  case idle =>
    intro p hp fd
    rw [hofile p]
    exact hidle p hp fd
  all_goals grind

theorem ref_pos (h : Inv s 0) (hf : (s.proc p).ofile fd = some f) : 1 ≤ (s.file f).ref := by
  have hpos : 0 < pointers (ptr s) f := pointers_pos_iff.2 ⟨(p, fd), hf⟩
  rw [h.ref f, Pi.zero_apply]
  omega

/-! ## Descriptors -/

theorem ptr_putOfile (r : Option Fp) : ptr (s.putOfile p fd r) = update (ptr s) (p, fd) r := by
  funext ⟨q, gd⟩
  by_cases hq : q = p
  · subst hq
    by_cases hg : gd = fd
    · subst hg
      simp [ptr, St.putOfile, St.putProc]
    · simp [ptr, St.putOfile, St.putProc, hg]
  · simp [ptr, St.putOfile, St.putProc, hq]

theorem idle_putOfile {r : Option Fp} (h : Inv s x) (hr : (s.proc p).Idle → r = none) :
    ∀ q, ((s.putOfile p fd r).proc q).Idle →
      ∀ gd, ((s.putOfile p fd r).proc q).ofile gd = none := by
  intro q hq gd
  by_cases hqp : q = p
  · subst hqp
    simp only [St.putOfile, St.putProc, update_self] at hq ⊢
    have hidle : (s.proc q).Idle := hq
    rw [hr hidle, update_apply]
    split
    · rfl
    · exact h.idle q hidle gd
  · simp only [St.putOfile, St.putProc, update_of_ne hqp] at hq ⊢
    exact h.idle q hq gd

theorem install (h : Inv s x) (hnone : (s.proc p).ofile fd = none) (hp : ¬ (s.proc p).Idle) :
    Inv (s.putOfile p fd (some f)) (x - one f) := by
  refine ⟨fun g => ?_, h.free, h.idle_putOfile fun hidle => absurd hidle hp, h.obj, h.serial,
    h.once, h.made, h.gone⟩
  have href := h.ref g
  have hset := pointers_set (f := f) (g := g) (show ptr s (p, fd) = none from hnone)
  rw [ptr_putOfile, hset, Pi.sub_apply, one]
  change (s.file g).ref = _
  split <;> push_cast <;> omega

theorem uninstall (h : Inv s x) (hsome : (s.proc p).ofile fd = some f) :
    Inv (s.putOfile p fd none) (x + one f) := by
  refine ⟨fun g => ?_, h.free, h.idle_putOfile fun _ => rfl, h.obj, h.serial, h.once, h.made,
    h.gone⟩
  have href := h.ref g
  have hclear := pointers_clear (g := g) (show ptr s (p, fd) = some f from hsome)
  rw [ptr_putOfile, Pi.add_apply, one]
  change (s.file g).ref = _
  by_cases hg : g = f
  · rw [if_pos hg] at hclear ⊢
    omega
  · rw [if_neg hg] at hclear ⊢
    omega

/-! ## References -/

theorem serial_lt (h : Inv s x) (hf : (s.file f).ref ≠ 0) : (s.file f).serial < s.opened.length :=
  (List.getElem?_eq_some_iff.1 (h.obj f hf)).1

theorem closed_lt (h : Inv s x) {k : Nat} (hk : k ∈ s.closed.map Prod.fst) :
    k < s.opened.length := by
  rcases List.mem_map.1 hk with ⟨c, hc, rfl⟩
  exact (List.getElem?_eq_some_iff.1 (h.made c hc)).1

theorem reref (h : Inv s x) {n : Int} {x' : Fp → Int} (hf : 1 ≤ (s.file f).ref) (hn : 1 ≤ n)
    (hx : ∀ g, x' g = x g + if g = f then n - (s.file f).ref else 0) :
    Inv (s.putFile f { s.file f with ref := n }) x' := by
  have hfile : ∀ g, (s.putFile f { s.file f with ref := n }).file g =
      if g = f then { s.file f with ref := n } else s.file g := fun g => update_apply ..
  generalize hu : s.putFile f { s.file f with ref := n } = u at *
  have hopened : u.opened = s.opened := by rw [← hu]; rfl
  have hclosed : u.closed = s.closed := by rw [← hu]; rfl
  have hproc : u.proc = s.proc := by rw [← hu]; rfl
  have hptr : ptr u = ptr s := funext fun a => by rw [ptr, hproc]; rfl
  rcases h with ⟨ref, free, idle, obj, serial, once, made, gone⟩
  constructor
  case idle => rwa [hproc]
  all_goals grind [File.obj]

theorem filedup_spec (h : Inv s x) (hf : 1 ≤ (s.file f).ref) : wp (filedup f) (fun _ => False)
    (fun _ t => Inv t (x + one f) ∧ t.proc = s.proc) s := by
  rw [filedup, wp_bind, wp_gets, if_neg (by omega)]
  refine ⟨h.reref hf (by omega) fun g => ?_, rfl⟩
  rw [Pi.add_apply, one]
  split
  · omega
  · rfl

theorem last (h : Inv s x) (hf : (s.file f).ref = 1) :
    Inv { s.putFile f { s.file f with ref := 0, type := .none } with
      closed := ((s.file f).serial, (s.file f).obj) :: s.closed } (x - one f) := by
  have hlive : (s.file f).ref ≠ 0 := by omega
  have hlt := h.serial_lt hlive
  have hnot : (s.file f).serial ∉ s.closed.map Prod.fst := fun hmem =>
    (h.gone _ hlt).1 hmem f hlive rfl
  generalize hu : ({ s.putFile f { s.file f with ref := 0, type := .none } with
      closed := ((s.file f).serial, (s.file f).obj) :: s.closed } : St) = u
  have hfile : ∀ g, u.file g =
      if g = f then { s.file f with ref := 0, type := .none } else s.file g := fun g => by
    rw [← hu]
    exact update_apply ..
  have hopened : u.opened = s.opened := by rw [← hu]; rfl
  have hclosed : u.closed = ((s.file f).serial, (s.file f).obj) :: s.closed := by rw [← hu]
  have hproc : u.proc = s.proc := by rw [← hu]; rfl
  have hptr : ptr u = ptr s := funext fun a => by rw [ptr, hproc]; rfl
  rcases h with ⟨ref, free, idle, obj, serial, once, made, gone⟩
  constructor
  case ref =>
    intro g
    rw [hptr, Pi.sub_apply, one]
    grind
  case gone =>
    intro k hk
    rw [hopened] at hk
    rw [hclosed, List.map_cons, List.mem_cons, gone k hk]
    grind
  case idle => rwa [hproc]
  all_goals grind

theorem fileclose_spec (h : Inv s x) (hf : 1 ≤ (s.file f).ref) : wp (fileclose f) (fun _ => False)
    (fun _ t => Inv t (x - one f) ∧ t.proc = s.proc) s := by
  rw [fileclose, wp_bind, wp_gets, if_neg (by omega)]
  by_cases hlast : (s.file f).ref = 1
  · rw [if_neg (by omega), wp_bind]
    have hinv := h.last hlast
    have htype : (s.file f).type ≠ .none := fun hnone => by
      have hzero := (h.free f).2 hnone
      omega
    change wp (closeObj (s.file f)) _ _ (s.putFile f { s.file f with ref := 0, type := .none })
    rw [closeObj]
    cases htype' : (s.file f).type with
    | none => exact absurd htype' htype
    | pipe =>
      rw [File.obj, if_pos htype'] at hinv
      exact ⟨hinv, rfl⟩
    | inode =>
      rw [File.obj, htype', if_neg nofun] at hinv
      exact ⟨hinv, rfl⟩
    | device =>
      rw [File.obj, htype', if_neg nofun] at hinv
      exact ⟨hinv, rfl⟩
  · rw [if_pos (by omega)]
    refine ⟨h.reref hf (by omega) fun g => ?_, rfl⟩
    rw [Pi.sub_apply, one]
    split <;> omega

/-! ## Opening -/

theorem opens (h : Inv s x) {y : File} {o : Obj} (hf : (s.file f).ref = 0) (href : y.ref = 1)
    (htype : y.type ≠ .none) (hobj : y.obj = o) : Inv (s.openAs f y o) (x + one f) := by
  generalize hu : s.openAs f y o = u
  have hfile : ∀ g, u.file g =
      if g = f then { y with serial := s.opened.length } else s.file g := fun g => by
    rw [← hu]
    exact update_apply ..
  have hopened : u.opened = s.opened ++ [o] := by rw [← hu]; rfl
  have hclosed : u.closed = s.closed := by rw [← hu]; rfl
  have hproc : u.proc = s.proc := by rw [← hu]; rfl
  have hptr : ptr u = ptr s := funext fun a => by rw [ptr, hproc]; rfl
  have hlt : ∀ g, (s.file g).ref ≠ 0 → (s.file g).serial < s.opened.length := fun _ => h.serial_lt
  have hgone : ∀ k ∈ s.closed.map Prod.fst, k < s.opened.length := fun _ => h.closed_lt
  rcases h with ⟨ref, free, idle, obj, serial, once, made, gone⟩
  constructor
  case ref =>
    intro g
    rw [hptr, Pi.add_apply, one]
    grind
  case idle => rwa [hproc]
  all_goals grind [File.obj]

end Inv

end Xv6.Ftable
