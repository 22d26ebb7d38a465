import Xv6.Itable.Rules

/-!
# Calls — the system calls keep to the protocol

Every system call establishes what its operations need: it locks a second inode only below a
directory that it has locked, gives up each pointer that it has taken, and ends without a lock.
-/

namespace Xv6.Itable

open Lib
open Lib.Protocol (wp_and wp_ite wp_mono wp_ret)

variable {ι : Type} [Fintype ι] [DecidableEq ι] {ninodes : Nat}
variable {s t u v : St ι} {p : ι} {q dp ip : Ip} {i : Nat}
variable {a : Private} {h : Multiset Ip} {L : Finset Ip}

/-- With one more inode, locked. -/
abbrev Private.locking (a : Private) (ip : Ip) : Private :=
  { a with held := ip ::ₘ a.held, locks := insert ip a.locks }

/-- With a directory and an inode below it. -/
abbrev Private.both (a : Private) (dp ip : Ip) : Private :=
  (a.locking dp).locking ip

/-- The call ends as it began. -/
abbrev Ends (ninodes : Nat) (p : ι) (c : Cmd ι Unit) (s : St ι) : Prop :=
  wp ninodes p (fun _ => Ready p) c s

/-! ## Inodes and directories -/

omit [Fintype ι] [DecidableEq ι] in
/-- A process that had no lock has given up the one that it has taken. -/
theorem Own.unlocked (hl : a.locks = ∅) (ha : At p { a with held := h, locks := ∅ } s) :
    At p { a with held := h } s := by
  rw [← hl] at ha
  exact ha

theorem wp_iunlockput (ha : At p a s) (hl : a.locks = insert q L) (hq : q ∉ L)
    (hheld : a.held = q ::ₘ h) (hsure : Sure s q) : wp ninodes p
    (fun _ v => At p { a with held := h, locks := L } v ∧ Keep h s v) (iunlockput q) s := by
  refine wp_seq (wp_iunlock ha hl hq) fun _ t _ ht => ?_
  have hsure' := hsure.keep ht.2 (hheld ▸ Multiset.mem_cons_self q h)
  refine wp_mono (wp_iput ht.1 hheld (fun hmem => absurd hmem hq) hsure') fun _ v _ hv => ⟨hv.1, ?_⟩
  exact (ht.2.mono (hheld ▸ Multiset.subset_cons h q)).trans hv.2

theorem wp_ilock_first (ha : At p { a with held := q ::ₘ a.held } s) (hs : Inv s) (hl : a.locks = ∅)
    (hsure : Sure s q) : wp ninodes p (fun x v => At p (a.locking q) v ∧ Keep (q ::ₘ a.held) s v ∧
      q ∉ a.locks ∧ Live v q ∧ Sure v q ∧ (v.dinode q).type = x.1) (Cmd.ilock q) s :=
  wp_mono (wp_ilock ha hs (ha.points (Multiset.mem_cons_self q a.held)) (hsure.fine hs)
    (by simp [hl]))
    fun _ _ _ ⟨hav, hk, hq, _, hlive, hsure, htype, _⟩ => ⟨hav, hk, hq, hlive, hsure, htype⟩

/-- What `dirlookup` gives to its caller. -/
def Found (p : ι) (a : Private) (dp : Ip) (name : Name) (r : Option (Nat × Ip)) (v : St ι) : Prop :=
  match r with
  | none => At p a v
  | some (_, ip) => At p { a with held := ip ::ₘ a.held } v ∧ Sure v ip ∧
      (name ≠ dot → name ≠ dotdot → Above v dp (v.itable ip).inum)

theorem wp_dirlookup (ha : At p a s) (hl : dp ∈ a.locks) (hdp : dp ∈ a.held)
    (hf : a.fresh = none) (name : Name) : wp ninodes p
    (fun r v => Keep a.held s v ∧ IsDir v dp ∧ Found p a dp name r v) (dirlookup dp name) s := by
  refine wp_seq (wp_find ha hl hdp name) fun r t ht hfound => ?_
  obtain ⟨hat, hkeep, hdir, habove⟩ := hfound
  cases r with
  | none =>
    refine wp_ret _ fun v htv _ => ?_
    exact ⟨hkeep.own hat htv, hdir.stays (htv.stays dp (hat.points hdp)),
      hat.rely htv⟩
  | some x =>
    obtain ⟨n, i⟩ := x
    refine wp_seq (wp_iget hat (.inl hf)) fun ip u hu hgot => ?_
    obtain ⟨hau, hku, hinum, hsure⟩ := hgot
    refine wp_ret _ fun v huv hv => ?_
    have hmem := Multiset.mem_cons_self ip a.held
    have hsub := Multiset.subset_cons a.held ip
    have hkv := hku.rely hau hsub huv
    have hown : At p { a with held := ip ::ₘ a.held } v := by
      have hown := hau.rely huv
      rw [← hf] at hown
      exact hown
    refine ⟨hkeep.trans hkv, hdir.stays (hkv.stays dp hdp), hown,
      (hsure.1 hf).rely huv (hau.points hmem), fun hdot hdotdot => ?_⟩
    rw [(huv.stays ip (hau.points hmem)).inum, hinum]
    exact (habove n i rfl hdot hdotdot).stays ht hdir.1 (hkv.stays dp hdp) hkv.onward

theorem wp_dirlink (ha : At p a s) (hs : Inv s) (hl : dp ∈ a.locks)
    (hsub : ∀ r ∈ a.locks, r ∈ a.held)
    (hf : a.fresh = none) {name : Name} (habove : name ≠ dot → name ≠ dotdot → Above s dp i) :
    wp ninodes p (fun _ v => At p a v ∧ Keep a.held s v) (dirlink dp name i) s := by
  have hdp := hsub dp hl
  refine wp_seq (wp_dirlookup ha hl hdp hf name) fun r t ht hfound => ?_
  obtain ⟨hkeep, hdir, hfound⟩ := hfound
  cases r with
  | none =>
    have habove' : name ≠ dot → name ≠ dotdot → Above t dp i := fun hdot hdotdot =>
      (habove hdot hdotdot).stays hs (ha.live hs hl (by simp)) (hkeep.stays dp hdp) hkeep.onward
    refine wp_mono (wp_addEntry hfound ht hl hdp habove') fun _ v _ hv => ?_
    exact ⟨hv.1, hkeep.trans hv.2⟩
  | some x =>
    obtain ⟨n, ip⟩ := x
    obtain ⟨hat, hsure, -⟩ := hfound
    refine wp_seq (wp_iput hat rfl (hsub ip) hsure) fun _ u _ hu => ?_
    refine wp_ret _ fun v huv _ => ?_
    exact ⟨hu.1.rely huv, hkeep.trans (hu.2.own hu.1 huv)⟩

/-! ## Paths -/

/-- What a path walk gives to its caller. -/
def Walked (p : ι) (a : Private) (r : Option (Ip × Name)) (v : St ι) : Prop :=
  match r with
  | none => At p a v
  | some (q, _) => At p { a with held := q ::ₘ a.held } v ∧ Sure v q

theorem wp_namexFrom (parent : Bool) (elems : List Name)
    (ha : At p { a with held := ip ::ₘ a.held } s) (hs : Inv s) (hl : a.locks = ∅)
    (hf : a.fresh = none) (hsure : Sure s ip) : wp ninodes p
    (fun r v => Keep a.held s v ∧ Walked p a r v) (namexFrom parent elems ip) s := by
  induction elems generalizing ip s with
  | nil =>
    rw [namexFrom]
    split
    · refine wp_seq (wp_iput ha rfl (by simp [hl]) hsure) fun _ t _ ht => ?_
      exact wp_kept ht.1 ht.2 fun _ h => h
    · refine wp_ret _ fun v hsv _ => ?_
      have hmem := ha.points (Multiset.mem_cons_self ip a.held)
      exact ⟨(ha.keep hsv).mono (Multiset.subset_cons _ ip), ha.rely hsv,
        hsure.rely hsv hmem⟩
  | cons name elems ih =>
    rw [namexFrom]
    have hmem := Multiset.mem_cons_self ip a.held
    refine wp_seq (wp_ilock_first ha hs hl hsure) fun x t ht hlocked => ?_
    obtain ⟨hat, hkt, hql, hlive, hsure', htype⟩ := hlocked
    have hsub := Multiset.subset_cons a.held ip
    -- the locks of the walk are just that of `ip`
    have hlocks : insert ip a.locks = insert ip (∅ : Finset Ip) := by rw [hl]
    split
    · refine wp_seq (wp_iunlockput hat hlocks (Finset.notMem_empty ip) rfl hsure')
        fun _ u _ hu => ?_
      exact wp_kept (Own.unlocked hl hu.1) ((hkt.mono hsub).trans hu.2) fun _ h => h
    · split
      · refine wp_seq (wp_iunlock hat hlocks (Finset.notMem_empty ip)) fun _ u _ hu => ?_
        refine wp_ret _ fun v huv _ => ?_
        have hau : At p { a with held := ip ::ₘ a.held } u := Own.unlocked hl hu.1
        have hkv := hu.2.rely hau (fun _ hr => hr) huv
        exact ⟨(hkt.trans hkv).mono hsub, hau.rely huv, hsure'.keep hkv hmem⟩
      · refine wp_seq (wp_dirlookup hat (Finset.mem_insert_self ip _) hmem hf name)
          fun r u hu hfound => ?_
        obtain ⟨hku, -, hfound⟩ := hfound
        have hsureu := hsure'.keep hku hmem
        cases r with
        | none =>
          refine wp_seq (wp_iunlockput hfound hlocks (Finset.notMem_empty ip) rfl hsureu)
            fun _ w _ hw => ?_
          exact wp_kept (Own.unlocked hl hw.1) (((hkt.trans hku).mono hsub).trans hw.2) fun _ h => h
        | some x =>
          obtain ⟨n, next⟩ := x
          obtain ⟨hau, hsuren, -⟩ := hfound
          refine wp_seq (wp_iunlockput hau hlocks (Finset.notMem_empty ip)
            (Multiset.cons_swap next ip a.held) hsureu) fun _ w hw hput => ?_
          have haw : At p { a with held := next ::ₘ a.held } w := Own.unlocked hl hput.1
          have hsurew := hsuren.keep hput.2 (Multiset.mem_cons_self next _)
          refine wp_mono (ih haw hw hsurew) fun r v _ hv => ⟨?_, hv.2⟩
          exact (((hkt.trans hku).mono hsub).trans
            (hput.2.mono (Multiset.subset_cons _ next))).trans hv.1

theorem wp_namex (ha : At p a s) (hl : a.locks = ∅) (hf : a.fresh = none) (parent : Bool)
    (path : Path) : wp ninodes p (fun r v => Keep a.held s v ∧ Walked p a r v)
    (namex parent path) s := by
  have hrest : ∀ ip t, Inv t → At p { a with held := ip ::ₘ a.held } t → Keep a.held s t →
      Sure t ip → wp ninodes p (fun r v => Keep a.held s v ∧ Walked p a r v)
        (namexFrom parent path.elems ip) t := by
    intro ip t ht hat hkt hsure
    refine wp_mono (wp_namexFrom parent path.elems hat ht hl hf hsure)
      fun r v _ hv => ⟨hkt.trans hv.1, hv.2⟩
  rw [namex]
  split
  · refine wp_seq (wp_iget ha (.inl hf)) fun ip t ht hgot => ?_
    obtain ⟨hat, hkt, -, hsure⟩ := hgot
    rw [← hf] at hat
    exact hrest ip t ht hat hkt (hsure.1 hf)
  · refine wp_seq (wp_idupCwd ha) fun ip t ht hgot => ?_
    exact hrest ip t ht hgot.1 hgot.2.1 hgot.2.2

/-! ## `create` -/

/-- What `create` and the path walk of `sys_open` give to their caller: a locked inode. -/
def Opened (p : ι) (a : Private) (r : Option Ip) (v : St ι) : Prop :=
  match r with
  | none => At p a v
  | some ip => At p (a.locking ip) v ∧ ip ∉ a.locks ∧
      Live v ip ∧ Sure v ip

theorem wp_opened (ha : At p (a.locking ip) t) (hip : ip ∉ a.locks) (hlive : Live t ip)
    (hsure : Sure t ip) (hk : Keep a.held s t) :
    wp ninodes p (fun r v => Keep a.held s v ∧ Opened p a r v) (pure (some ip)) t := by
  refine wp_ret _ fun v htv _ => ?_
  have hstay := htv.stays ip (ha.points (Multiset.mem_cons_self ip a.held))
  exact ⟨hk.rely ha (Multiset.subset_cons _ ip) htv, ha.rely htv, hip, (hstay.live hlive).1,
    hsure.stays hstay htv.onward⟩

theorem wp_createFound (ha : At p { a with
      held := ip ::ₘ dp ::ₘ a.held
      locks := insert dp a.locks } s) (hl : a.locks = ∅) (hdp : Sure s dp) (hip : Sure s ip)
    (type : FileType) : wp ninodes p
    (fun r v => Keep a.held s v ∧ Opened p a r v) (createFound type dp ip) s := by
  have hnot : dp ∉ a.locks := by simp [hl]
  refine wp_seq (wp_iunlockput ha rfl hnot (Multiset.cons_swap ip dp a.held) hdp)
    fun _ t ht hput => ?_
  obtain ⟨hat, hkt⟩ := hput
  have hmem := Multiset.mem_cons_self ip a.held
  have hsub := Multiset.subset_cons a.held ip
  have hipt := hip.keep hkt hmem
  refine wp_seq (wp_ilock_first hat ht hl hipt) fun x u hu hlocked => ?_
  obtain ⟨hau, hku, hql, hlive, hsure, -⟩ := hlocked
  split
  · exact wp_opened hau hql hlive hsure ((hkt.trans hku).mono hsub)
  · refine wp_seq (wp_iunlockput hau rfl hql rfl hsure) fun _ w _ hput => ?_
    exact wp_kept hput.1 (((hkt.trans hku).mono hsub).trans hput.2) fun _ h => h

/-- The two inodes that `create` holds are given up, the new one first. -/
theorem wp_createFail (ha : At p (a.both dp ip) s) (hdp : dp ∉ a.locks)
    (hip : ip ∉ insert dp a.locks)
    (hsdp : Sure s dp) (hsip : Sure s ip) : wp ninodes p
    (fun r v => Keep a.held s v ∧ Opened p a r v) (createFail dp ip) s := by
  refine wp_seq (wp_setNlink ha (Finset.mem_insert_self ip _) 0) fun _ t _ ht => ?_
  have hsip' := hsip.keep ht.2 (Multiset.mem_cons_self ip _)
  have hkt := ht.2.mono (Multiset.subset_cons _ ip)
  refine wp_seq (wp_iunlockput ht.1 rfl hip rfl hsip') fun _ u _ hu => ?_
  have hku := hkt.trans hu.2
  have hsdp' := hsdp.keep hku (Multiset.mem_cons_self dp _)
  refine wp_seq (wp_iunlockput hu.1 rfl hdp rfl hsdp') fun _ w _ hw => ?_
  exact wp_kept hw.1 ((hku.mono (Multiset.subset_cons _ dp)).trans hw.2) fun _ h => h

theorem wp_createDots (ha : At p a s) (hl : ip ∈ a.locks) (hsub : ∀ r ∈ a.locks, r ∈ a.held)
    (hdp : dp ∈ a.held) (hf : a.fresh = none) : wp ninodes p
    (fun _ v => At p a v ∧ Keep a.held s v) (createDots dp ip) s := by
  refine wp_seq (wp_inum ha (hsub ip hl)) fun i t ht hi => ?_
  refine wp_seq (wp_dirlink hi.1 ht hl hsub hf fun hdot => absurd rfl hdot) fun ok u hu hlink => ?_
  have hku := hi.2.1.trans hlink.2
  split
  · refine wp_seq (wp_inum hlink.1 hdp) fun d w hw hd => ?_
    refine wp_mono (wp_dirlink hd.1 hw hl hsub hf fun _ hdotdot => absurd rfl hdotdot)
      fun _ v _ hv => ⟨hv.1, (hku.trans hd.2.1).trans hv.2⟩
  · exact wp_ret _ fun v huv _ =>
      ⟨hlink.1.rely huv, hku.own hlink.1 huv⟩

theorem wp_createNew (ha : At p (a.both dp ip) s) (hs : Inv s) (hl : a.locks = ∅)
    (hf : a.fresh = none) (hip : ip ∉ insert dp a.locks) (hsdp : Sure s dp) (hsip : Sure s ip)
    (habove : Above s dp (s.itable ip).inum) (type : FileType) (name : Name) (nlink : Int) :
    wp ninodes p (fun r v => Keep a.held s v ∧ Opened p a r v)
    (createNew type name dp ip nlink) s := by
  have hdp : dp ∉ a.locks := by simp [hl]
  have hmemip : ip ∈ ip ::ₘ dp ::ₘ a.held := Multiset.mem_cons_self ip _
  have hmemdp : dp ∈ ip ::ₘ dp ::ₘ a.held :=
    Multiset.mem_cons_of_mem (Multiset.mem_cons_self dp _)
  have hlip : ip ∈ insert ip (insert dp a.locks) := Finset.mem_insert_self ip _
  have hldp : dp ∈ insert ip (insert dp a.locks) :=
    Finset.mem_insert_of_mem (Finset.mem_insert_self dp _)
  have hlocks : ∀ r ∈ insert ip (insert dp a.locks), r ∈ ip ::ₘ dp ::ₘ a.held := by
    intro r hr
    rw [hl] at hr
    simp only [Finset.mem_insert, Finset.notMem_empty, or_false] at hr
    rcases hr with rfl | rfl
    · exact hmemip
    · exact hmemdp
  have hsub : a.held ⊆ ip ::ₘ dp ::ₘ a.held := fun r hr =>
    Multiset.mem_cons_of_mem (Multiset.mem_cons_of_mem hr)
  have hlivedp := ha.live hs hldp (by simp)
  -- whatever has been done to the two inodes, `create` can give them up
  have hfail : ∀ t, At p (a.both dp ip) t → Keep (ip ::ₘ dp ::ₘ a.held) s t →
      wp ninodes p (fun r v => Keep a.held s v ∧ Opened p a r v) (createFail dp ip) t := by
    intro t hat hkt
    refine wp_mono (wp_createFail hat hdp hip
      (hsdp.keep hkt hmemdp) (hsip.keep hkt hmemip))
      fun r v _ hv => ⟨(hkt.mono hsub).trans hv.1, hv.2⟩
  have hlast : ∀ y, Inv y → At p (a.both dp ip) y → Keep (ip ::ₘ dp ::ₘ a.held) s y →
      wp ninodes p (fun r v => Keep a.held s v ∧ Opened p a r v)
        (do iunlockput dp; pure (some ip)) y := by
    intro y hy hay hky
    have hswap : insert ip (insert dp a.locks) = insert dp (insert ip a.locks) :=
      Finset.insert_comm ip dp a.locks
    have hdp' : dp ∉ insert ip a.locks := by
      rw [hl]
      simp only [Finset.mem_insert, Finset.notMem_empty, or_false]
      rintro rfl
      exact hip (Finset.mem_insert_self _ _)
    have hsdpy := hsdp.keep hky hmemdp
    have hsipy := hsip.keep hky hmemip
    have hlivey := hay.live hy hlip (by simp)
    refine wp_seq (wp_iunlockput hay hswap hdp'
      (Multiset.cons_swap ip dp a.held) hsdpy) fun _ z _ hz => ?_
    have hip' := Multiset.mem_cons_self ip a.held
    exact wp_opened hz.1 (by simp [hl]) ((hz.2.stays ip hip').live hlivey).1 (hsipy.keep hz.2 hip')
      ((hky.mono hsub).trans (hz.2.mono (Multiset.subset_cons _ ip)))
  have hlink : ∀ (ok : Bool) u, Inv u → At p (a.both dp ip) u → Keep (ip ::ₘ dp ::ₘ a.held) s u →
      wp ninodes p (fun r v => Keep a.held s v ∧ Opened p a r v) (if ok = false then
          createFail dp ip
        else do
          let i ← Cmd.inum ip
          let ok ← dirlink dp name i
          if ok = false then
            createFail dp ip
          else do
            if type = .dir then Cmd.setNlink dp (short (nlink + 1)) else pure ()
            iunlockput dp
            pure (some ip)) u := by
    intro ok u hu hau hku
    split
    · exact hfail u hau hku
    · refine wp_seq (wp_inum hau hmemip) fun i w hw hi => ?_
      have hkw := hku.trans hi.2.1
      have habove' : Above w dp i := by
        rw [← hi.2.2, (hkw.stays ip hmemip).inum]
        exact habove.stays hs hlivedp (hkw.stays dp hmemdp) hkw.onward
      refine wp_seq (wp_dirlink hi.1 hw hldp hlocks hf fun _ _ => habove') fun ok x hx hax => ?_
      have hkx := hkw.trans hax.2
      split
      · exact hfail x hax.1 hkx
      · refine wp_ite (fun _ => ?_) fun _ => hlast x hx hax.1 hkx
        refine wp_seq (wp_setNlink hax.1 hldp _) fun _ y hy hay => ?_
        exact hlast y hy hay.1 (hkx.trans hay.2)
  refine wp_seq (wp_setNlink ha hlip 1) fun _ t ht hat => ?_
  refine wp_ite (fun _ => ?_) fun _ => ?_
  · refine wp_seq (wp_createDots hat.1 hlip hlocks hmemdp hf) fun ok u hu hau => ?_
    exact hlink ok u hu hau.1 (hat.2.trans hau.2)
  · exact hlink true t ht hat.1 hat.2

theorem wp_create (ha : At p a s) (hl : a.locks = ∅) (hf : a.fresh = none) {type : FileType}
    (hty : type ≠ .none) (path : Path) : wp ninodes p
    (fun r v => Keep a.held s v ∧ Opened p a r v) (create type path) s := by
  refine wp_seq (wp_namex ha hl hf true path) fun r t ht hwalk => ?_
  obtain ⟨hkt, hwalk⟩ := hwalk
  cases r with
  | none => exact wp_kept hwalk hkt fun _ h => h
  | some x =>
    obtain ⟨dp, name⟩ := x
    obtain ⟨hat, hsure⟩ := hwalk
    have hmem : dp ∈ dp ::ₘ a.held := Multiset.mem_cons_self dp _
    have hsub : a.held ⊆ dp ::ₘ a.held := Multiset.subset_cons _ dp
    refine wp_seq (wp_ilock_first hat ht hl hsure) fun x u _ hlocked => ?_
    obtain ⟨hau, hku, hdp, -, hsdp, -⟩ := hlocked
    have hksu := hkt.trans (hku.mono hsub)
    refine wp_seq (wp_dirlookup hau (Finset.mem_insert_self dp _) hmem hf name)
      fun r w hw hfound => ?_
    obtain ⟨hkw, hdir, hfound⟩ := hfound
    have hksw := hksu.trans (hkw.mono hsub)
    have hsdpw := hsdp.keep hkw hmem
    cases r with
    | some y =>
      obtain ⟨n, ip⟩ := y
      obtain ⟨haw, hsip, -⟩ := hfound
      refine wp_mono (wp_createFound haw hl hsdpw hsip type) fun r v _ hv => ?_
      exact ⟨hksw.trans hv.1, hv.2⟩
    | none =>
      refine wp_seq (wp_ialloc hfound hf hty) fun r y hy halloc => ?_
      obtain ⟨hky, halloc⟩ := halloc
      have hksy := hksw.trans (hky.mono hsub)
      have hsdpy := hsdpw.keep hky hmem
      cases r with
      | none =>
        refine wp_seq (wp_iunlockput halloc rfl hdp rfl hsdpy) fun _ z _ hz => ?_
        exact wp_kept hz.1 (hksy.trans hz.2) fun _ h => h
      | some i =>
        obtain ⟨hay, habove⟩ := halloc
        have habovey := habove dp hmem hdir.1
        have hlivey := ((hky.stays dp hmem).live hdir.1).1
        refine wp_seq (wp_iget hay (.inr rfl)) fun ip z hz hgot => ?_
        obtain ⟨haz, hkz, hinum, -, hfine⟩ := hgot
        have hksz := hksy.trans (hkz.mono hsub)
        have hdirz : IsDir z dp :=
          (hdir.stays (hky.stays dp hmem)).stays (hkz.stays dp hmem)
        have habovez : Above z dp (z.itable ip).inum := by
          rw [hinum]
          exact habovey.stays hy hlivey (hkz.stays dp hmem) hkz.onward
        have hsdpz := hsdpy.keep hkz hmem
        have hmemip : ip ∈ ip ::ₘ dp ::ₘ a.held := Multiset.mem_cons_self ip _
        have hmemdp : dp ∈ ip ::ₘ dp ::ₘ a.held := Multiset.mem_cons_of_mem hmem
        refine wp_seq (wp_ilock haz hz (haz.points hmemip) hfine ?_) fun _ c hc hlocked => ?_
        · intro d hd
          have hd' : d = dp := by simpa [hl] using hd
          subst hd'
          exact ⟨hmemdp, hdirz, habovez⟩
        · obtain ⟨hac, hkc, hip, -, -, hsip, -, hinum'⟩ := hlocked
          have hac' : At p (a.both dp ip) c := by
            rw [← hf] at hac
            exact hac
          have habovec : Above c dp (c.itable ip).inum := by
            rw [hinum']
            exact habovez.stays hz hdirz.1 (hkc.stays dp hmemdp) hkc.onward
          refine wp_mono (wp_createNew hac' hc hl hf hip
            (hsdpz.keep hkc hmemdp) hsip habovec type name _)
            fun r v _ hv => ⟨?_, hv.2⟩
          exact (hksz.trans (hkc.mono fun r hr =>
            Multiset.mem_cons_of_mem (Multiset.mem_cons_of_mem hr))).trans hv.1

/-! ## System calls -/

/-- A process between two calls. -/
structure Idle (a : Private) : Prop where
  held : a.held = 0
  locks : a.locks = ∅
  fresh : a.fresh = none
  cwd : a.cwd ≠ none

omit [Fintype ι] [DecidableEq ι] in
theorem Own.ready (ha : At p a s) (hi : Idle a) : Ready p s where
  held := ha.held.trans hi.held
  fresh := ha.fresh.trans hi.fresh
  locks := fun q hl => by
    have hmem := (ha.locks q).1 hl
    rw [hi.locks] at hmem
    exact Finset.notMem_empty q hmem
  cwd := fun _ => by
    rw [ha.cwd]
    exact hi.cwd

omit [Fintype ι] [DecidableEq ι] in
theorem Ready.own (hr : Ready p s) (hused : s.used p = true) : ∃ a, At p a s ∧ Idle a :=
  ⟨⟨0, ∅, none, s.cwd p, s.ofile p⟩,
    ⟨hused, hr.held, hr.fresh, rfl, rfl, fun q => iff_of_false (hr.locks q) (Finset.notMem_empty q),
      fun q hq => absurd hq (Finset.notMem_empty q)⟩, rfl, rfl, rfl, hr.cwd hused⟩

theorem wp_done (ha : At p a s) (hi : Idle a) (x : Unit) :
    Ends ninodes p (pure x) s :=
  wp_ret _ fun _ hsv _ => (ha.rely hsv).ready hi

theorem wp_iunlockput_done (ha : At p (a.locking q) s) (hi : Idle a) (hq : q ∉ a.locks)
    (hsure : Sure s q) :
    Ends ninodes p (iunlockput q) s :=
  wp_mono (wp_iunlockput ha rfl hq rfl hsure) fun _ _ _ hv => hv.1.ready hi

/-- A call that walks a path and locks the inode it comes to. -/
theorem wp_walked {k : Option (Ip × Name) → Cmd ι Unit}
    {g : Ip → Name → FileType × Int → Cmd ι Unit}
    (ha : At p a s) (hi : Idle a) (parent : Bool) (path : Path) (hnone : k none = pure ())
    (hsome : ∀ ip name, k (some (ip, name)) = Cmd.ilock ip >>= g ip name)
    (hg : ∀ ip name x u, Inv u → At p (a.locking ip) u → ip ∉ a.locks → Live u ip → Sure u ip →
      (u.dinode ip).type = x.1 → Ends ninodes p (g ip name x) u) :
    Ends ninodes p (namex parent path >>= k) s := by
  refine wp_seq (wp_namex ha hi.locks hi.fresh parent path) fun r t ht hwalk => ?_
  obtain ⟨-, hwalk⟩ := hwalk
  cases r with
  | none =>
    rw [hnone]
    exact wp_done hwalk hi ()
  | some x =>
    obtain ⟨ip, name⟩ := x
    rw [hsome]
    refine wp_seq (wp_ilock_first hwalk.1 ht hi.locks hwalk.2) fun x u hu hlocked => ?_
    obtain ⟨hau, -, hip, hlive, hsure, htype⟩ := hlocked
    exact hg ip name x u hu hau hip hlive hsure htype

theorem wp_iput_done (ha : At p { a with held := q ::ₘ a.held } s) (hi : Idle a)
    (hsure : Sure s q) :
    Ends ninodes p (iput q) s :=
  wp_mono (wp_iput ha rfl (by simp [hi.locks]) hsure) fun _ _ _ hv => hv.1.ready hi

theorem wp_openInode (ha : At p a s) (hi : Idle a) (path : Path) (omode : Nat) :
    wp ninodes p (fun r v => Keep a.held s v ∧ Opened p a r v)
    (openInode path omode) s := by
  rw [openInode]
  refine wp_ite (fun _ => ?_) fun _ => ?_
  · exact wp_create ha hi.locks hi.fresh (by simp) path
  · refine wp_seq (wp_namex ha hi.locks hi.fresh false path) fun r t ht hwalk => ?_
    obtain ⟨hkt, hwalk⟩ := hwalk
    cases r with
    | none => exact wp_kept hwalk hkt fun _ h => h
    | some x =>
      obtain ⟨ip, name⟩ := x
      obtain ⟨hat, hsure⟩ := hwalk
      have hmem := Multiset.mem_cons_self ip a.held
      have hsub := Multiset.subset_cons a.held ip
      refine wp_seq (wp_ilock_first hat ht hi.locks hsure) fun x u hu hlocked => ?_
      obtain ⟨hau, hku, hql, hlive, hsure, -⟩ := hlocked
      refine wp_ite (fun _ => ?_) fun _ => ?_
      · refine wp_seq (wp_iunlockput hau rfl hql rfl hsure) fun _ w _ hw => ?_
        exact wp_kept hw.1 ((hkt.trans (hku.mono hsub)).trans hw.2) fun _ h => h
      · exact wp_opened hau hql hlive hsure (hkt.trans (hku.mono hsub))

theorem wp_sysOpen (ha : At p a s) (hi : Idle a) (path : Path) (omode : Nat)
    (refuse : Bool) : Ends ninodes p (sysOpen path omode refuse) s := by
  refine wp_seq (wp_openInode ha hi path omode) fun r t ht hopen => ?_
  obtain ⟨-, hopen⟩ := hopen
  cases r with
  | none => exact wp_done hopen hi ()
  | some ip =>
    obtain ⟨hat, hip, hlive, hsure⟩ := hopen
    have hmem := Multiset.mem_cons_self ip a.held
    refine wp_seq (wp_type hat ip) fun type u hu hau => ?_
    have hstay := hau.2.stays ip hmem
    have hsureu := hsure.stays hstay hau.2.onward
    refine wp_ite (fun _ => wp_iunlockput_done hau.1 hi hip hsureu) fun _ => ?_
    refine wp_seq (wp_openFile hau.1 rfl (hstay.live hlive).1 hsureu _ _)
      fun r w hw hfile => ?_
    obtain ⟨-, hfile⟩ := hfile
    cases r with
    | none => exact wp_iunlockput_done hfile.1 hi hip hfile.2
    | some fd =>
      obtain ⟨g, haw⟩ := hfile
      have hunlock : ∀ x, At p { a with
          held := a.held
          locks := insert ip a.locks
          ofile := Function.update a.ofile fd (some g) } x →
          Ends ninodes p (Cmd.iunlock ip) x := by
        intro x hax
        refine wp_mono (wp_iunlock hax rfl hip) fun _ v _ hv => ?_
        exact hv.1.ready ⟨hi.held, hi.locks, hi.fresh, hi.cwd⟩
      refine wp_ite (fun _ => ?_) fun _ => hunlock w haw
      refine wp_seq (wp_itrunc haw (Finset.mem_insert_self ip _)) fun _ x _ hx => hunlock x hx.1

theorem wp_createAndPut (ha : At p a s) (hi : Idle a) {type : FileType} (hty : type ≠ .none)
    (path : Path) : Ends ninodes p (createAndPut type path) s := by
  refine wp_seq (wp_create ha hi.locks hi.fresh hty path) fun r t _ hopen => ?_
  obtain ⟨-, hopen⟩ := hopen
  cases r with
  | none => exact wp_done hopen hi ()
  | some ip => exact wp_iunlockput_done hopen.1 hi hopen.2.1 hopen.2.2.2

theorem wp_linkBad (ha : At p { a with held := ip ::ₘ a.held } s) (hs : Inv s) (hi : Idle a)
    (hip : Sure s ip) : Ends ninodes p (linkBad ip) s := by
  have hmem := Multiset.mem_cons_self ip a.held
  refine wp_seq (wp_ilock_first ha hs hi.locks hip) fun x t _ hlocked => ?_
  obtain ⟨hat, -, hql, -, hsure, -⟩ := hlocked
  refine wp_seq (wp_setNlink hat (Finset.mem_insert_self ip _) _) fun _ u _ hu => ?_
  exact wp_iunlockput_done hu.1 hi hql (hsure.keep hu.2 hmem)

theorem wp_sysLink (ha : At p a s) (hi : Idle a) (old new : Path) :
    Ends ninodes p (sysLink old new) s := by
  refine wp_walked ha hi false old rfl (fun _ _ => rfl)
    fun ip name x u hu hau hql hlive hsure htype => ?_
  have hmem := Multiset.mem_cons_self ip a.held
  refine wp_ite (fun _ => wp_iunlockput_done hau hi hql hsure) fun hnot => ?_
  refine wp_seq (wp_setNlink hau (Finset.mem_insert_self ip _) _) fun _ w _ hw => ?_
  refine wp_seq (wp_iunlock hw.1 rfl hql) fun _ x hx hunl => ?_
  have hkx := hw.2.trans hunl.2
  refine wp_seq (wp_namex hunl.1 hi.locks hi.fresh true new) fun r y hy hwalk => ?_
  obtain ⟨hky, hwalk⟩ := hwalk
  have hky' := hkx.trans hky
  cases r with
  | none =>
    exact wp_linkBad hwalk hy hi (hsure.keep hky' hmem)
  | some z =>
    obtain ⟨dp, nm⟩ := z
    obtain ⟨hay, hsuredp⟩ := hwalk
    have hmemip : ip ∈ dp ::ₘ ip ::ₘ a.held := Multiset.mem_cons_of_mem hmem
    have hmemdp : dp ∈ dp ::ₘ ip ::ₘ a.held := Multiset.mem_cons_self dp _
    have hsub : ip ::ₘ a.held ⊆ dp ::ₘ ip ::ₘ a.held := Multiset.subset_cons _ dp
    refine wp_seq (wp_ilock hay hy (hay.points hmemdp) (hsuredp.fine hy) (by simp [hi.locks]))
      fun _ c hc hlocked => ?_
    obtain ⟨hac, hkc, hdp, -, -, hsdp, -, -⟩ := hlocked
    refine wp_seq (wp_inum hac hmemip) fun i d hd hinum => ?_
    have hkd := (hky'.trans (hkc.mono hsub)).trans (hinum.2.1.mono hsub)
    -- a link to a file is in no one's way
    have habove : Above d dp i := by
      intro _ hdir
      have hstay := hkd.stays ip hmem
      rw [← hinum.2.2] at hdir
      have hdt : (d.dinode ip).type = .dir := hdir
      rw [(hstay.live hlive).2.1, htype] at hdt
      exact absurd hdt hnot
    have hlocks : ∀ r ∈ insert dp a.locks, r ∈ dp ::ₘ ip ::ₘ a.held := by
      intro r hr
      have hr' : r = dp := by simpa [hi.locks] using hr
      exact hr' ▸ hmemdp
    refine wp_seq (wp_dirlink hinum.1 hd (Finset.mem_insert_self dp _) hlocks
      hi.fresh fun _ _ => habove) fun ok e _ hlink => ?_
    have hke := hinum.2.1.trans hlink.2
    have hsdpe := hsdp.keep hke hmemdp
    have hsipe : Sure e ip := by
      have hk := hkd.trans (hlink.2.mono hsub)
      exact hsure.keep hk hmem
    refine wp_ite (fun _ => ?_) fun _ => ?_
    · refine wp_seq (wp_iunlockput hlink.1 rfl hdp rfl hsdpe) fun _ g hg hput => ?_
      exact wp_linkBad hput.1 hg hi (hsipe.keep hput.2 hmem)
    · refine wp_seq (wp_iunlockput hlink.1 rfl hdp rfl hsdpe) fun _ g _ hput => ?_
      exact wp_iput_done hput.1 hi (hsipe.keep hput.2 hmem)

/-- The two inodes that `sys_unlink` holds are given up, first the entry's and then the
directory. -/
theorem wp_putBoth (ha : At p (a.both dp ip) s) (hi : Idle a) (hip : ip ∉ insert dp a.locks)
    (hsdp : Sure s dp) (hsip : Sure s ip) :
    Ends ninodes p (do iunlockput ip; iunlockput dp) s := by
  refine wp_seq (wp_iunlockput ha rfl hip rfl hsip) fun _ t _ ht => ?_
  exact wp_iunlockput_done ht.1 hi (by simp [hi.locks])
    (hsdp.keep ht.2 (Multiset.mem_cons_self dp _))

theorem wp_unlinkEntry (ha : At p (a.both dp ip) s) (hi : Idle a) (hip : ip ∉ insert dp a.locks)
    (hsdp : Sure s dp) (hsip : Sure s ip) (n : Nat) (dplink : Int) (x : FileType × Int) :
    Ends ninodes p (unlinkEntry dp ip n dplink x) s := by
  have hmemip : ip ∈ ip ::ₘ dp ::ₘ a.held := Multiset.mem_cons_self ip _
  have hmemdp : dp ∈ ip ::ₘ dp ::ₘ a.held :=
    Multiset.mem_cons_of_mem (Multiset.mem_cons_self dp _)
  have hldp : dp ∈ insert ip (insert dp a.locks) :=
    Finset.mem_insert_of_mem (Finset.mem_insert_self dp _)
  have hswap : insert ip (insert dp a.locks) = insert dp (insert ip a.locks) :=
    Finset.insert_comm ip dp a.locks
  have hdp' : dp ∉ insert ip a.locks := by
    rw [hi.locks]
    simp only [Finset.mem_insert, Finset.notMem_empty, or_false]
    rintro rfl
    exact hip (Finset.mem_insert_self _ _)
  have hrest : ∀ t, At p (a.both dp ip) t → Keep (ip ::ₘ dp ::ₘ a.held) s t →
      Ends ninodes p (do iunlockput dp; Cmd.setNlink ip (short (x.2 - 1)); iunlockput ip) t := by
    intro t hat hkt
    refine wp_seq (wp_iunlockput hat hswap hdp' (Multiset.cons_swap ip dp a.held)
      (hsdp.keep hkt hmemdp)) fun _ u _ hu => ?_
    refine wp_seq (wp_setNlink hu.1 (Finset.mem_insert_self ip _) _) fun _ w _ hw => ?_
    have hsub : ip ::ₘ a.held ⊆ ip ::ₘ dp ::ₘ a.held := Multiset.cons_subset.2 ⟨hmemip,
      fun r hr => Multiset.mem_cons_of_mem (Multiset.mem_cons_of_mem hr)⟩
    have hkw := (hkt.mono hsub).trans (hu.2.trans hw.2)
    exact wp_iunlockput_done hw.1 hi (by simp [hi.locks])
      (hsip.keep hkw (Multiset.mem_cons_self ip _))
  refine wp_seq (wp_eraseEntry ha hldp n) fun _ t _ ht => ?_
  refine wp_ite (fun _ => ?_) fun _ => hrest t ht.1 ht.2
  refine wp_seq (wp_setNlink ht.1 hldp _) fun _ u _ hu => ?_
  exact hrest u hu.1 (ht.2.trans hu.2)

theorem wp_sysUnlink (ha : At p a s) (hi : Idle a) (path : Path) :
    Ends ninodes p (sysUnlink path) s := by
  refine wp_walked ha hi true path rfl (fun _ _ => rfl) fun dp name d u hu hau hdp _ hsdp _ => ?_
  have hmem := Multiset.mem_cons_self dp a.held
  refine wp_ite (fun _ => wp_iunlockput_done hau hi hdp hsdp) fun hname => ?_
  obtain ⟨hdot, hdotdot⟩ := not_or.1 hname
  refine wp_seq (wp_dirlookup hau (Finset.mem_insert_self dp _) hmem hi.fresh name)
    fun r w hw hfound => ?_
  obtain ⟨hkw, hdir, hfound⟩ := hfound
  have hsdpw := hsdp.keep hkw hmem
  cases r with
  | none => exact wp_iunlockput_done hfound hi hdp hsdpw
  | some y =>
    obtain ⟨n, ip⟩ := y
    obtain ⟨haw, hsipw, habove⟩ := hfound
    have hmemip : ip ∈ ip ::ₘ dp ::ₘ a.held := Multiset.mem_cons_self ip _
    have hmemdp : dp ∈ ip ::ₘ dp ::ₘ a.held := Multiset.mem_cons_of_mem hmem
    refine wp_seq (wp_ilock haw hw (haw.points hmemip) (hsipw.fine hw) ?_) fun x c _ hlocked => ?_
    · intro d hd
      have hd' : d = dp := by simpa [hi.locks] using hd
      subst hd'
      exact ⟨hmemdp, hdir, habove hdot hdotdot⟩
    obtain ⟨hac, hkc, hip, -, -, hsip, -, -⟩ := hlocked
    have hsdpc := hsdpw.keep hkc hmemdp
    refine wp_ite (fun _ => wp_panic _) fun _ => ?_
    have hrest : ∀ (isempty : Bool) e, At p (a.both dp ip) e → Keep (ip ::ₘ dp ::ₘ a.held) c e →
        Ends ninodes p (if isempty = false then do
            iunlockput ip
            iunlockput dp
          else
            unlinkEntry dp ip n d.2 x) e := by
      intro isempty e hae hke
      have hsdpe := hsdpc.keep hke hmemdp
      have hsipe := hsip.keep hke hmemip
      exact wp_ite (fun _ => wp_putBoth hae hi hip hsdpe hsipe)
        fun _ => wp_unlinkEntry hae hi hip hsdpe hsipe n d.2 x
    refine wp_ite (fun _ => ?_) fun _ => hrest true c hac (.refl _ c)
    refine wp_seq (wp_isdirempty hac (Finset.mem_insert_self ip _))
      fun isempty e _ he => hrest isempty e he.1 he.2

theorem wp_sysChdir (ha : At p a s) (hi : Idle a) (path : Path) :
    Ends ninodes p (sysChdir path) s := by
  refine wp_walked ha hi false path rfl (fun _ _ => rfl)
    fun ip name x u hu hau hql hlive hsure htype => ?_
  have hmem := Multiset.mem_cons_self ip a.held
  refine wp_ite (fun _ => wp_iunlockput_done hau hi hql hsure) fun hdir => ?_
  have hdiru : IsDir u ip := ⟨hlive, htype.trans (not_not.1 hdir)⟩
  refine wp_seq (wp_iunlock hau rfl hql) fun _ w _ hw => ?_
  refine wp_seq (wp_takeCwd hw.1) fun q x _ hx => ?_
  refine wp_seq (wp_iput hx.1 rfl (by simp [hi.locks]) hx.2.2) fun _ y _ hy => ?_
  have hky := (hw.2.trans hx.2.1).trans hy.2
  have hstay := hky.stays ip hmem
  refine wp_mono (wp_setCwd hy.1 rfl rfl (hdiru.stays hstay)
    (hsure.stays hstay hky.onward)) fun _ v _ hv => ?_
  exact hv.1.ready ⟨hi.held, hi.locks, hi.fresh, by simp⟩

theorem wp_ilock_file (ha : At p a s) (hs : Inv s) (hi : Idle a) (hq : Points s p q ∧ Fine s q) :
    wp ninodes p (fun _ v => At p { a with locks := insert q a.locks } v ∧ q ∉ a.locks ∧
      Points v p q ∧ Fine v q) (Cmd.ilock q) s := by
  refine wp_mono (wp_ilock ha hs hq.1 hq.2 (by simp [hi.locks])) fun _ v hv hq => ?_
  obtain ⟨hav, -, hql, hp, -, hsure, -⟩ := hq
  exact ⟨hav, hql, hp, hsure.fine hv⟩

theorem wp_inspect (ha : At p a s) (hs : Inv s) (hi : Idle a) (hq : Points s p q ∧ Fine s q) :
    Ends ninodes p (inspect q) s := by
  refine wp_seq (wp_ilock_file ha hs hi hq) fun _ t _ ht => ?_
  refine wp_seq (wp_readi ht.1 (Finset.mem_insert_self q _)) fun _ u _ hu => ?_
  exact wp_mono (wp_iunlock hu.1 rfl ht.2.1) fun _ _ _ hv => hv.1.ready hi

theorem wp_sysRead (ha : At p a s) (hi : Idle a) (fd : Fin NOFILE) :
    Ends ninodes p (sysRead fd) s := by
  refine wp_seq (wp_file ha fd) fun r t ht hfile => ?_
  obtain ⟨hat, -, hpoints⟩ := hfile
  cases r with
  | none => exact wp_done hat hi ()
  | some x =>
    obtain ⟨ip, w, d⟩ := x
    exact wp_ite (fun _ => wp_done hat hi ()) fun _ => wp_inspect hat ht hi (hpoints ip w d rfl)

theorem wp_sysFstat (ha : At p a s) (hi : Idle a) (fd : Fin NOFILE) :
    Ends ninodes p (sysFstat fd) s := by
  refine wp_seq (wp_file ha fd) fun r t ht hfile => ?_
  obtain ⟨hat, -, hpoints⟩ := hfile
  cases r with
  | none => exact wp_done hat hi ()
  | some x =>
    obtain ⟨ip, w, d⟩ := x
    exact wp_inspect hat ht hi (hpoints ip w d rfl)

theorem wp_writei_points (ha : At p a s) (hl : q ∈ a.locks) (hq : Points s p q ∧ Fine s q)
    (w : Chunk) : wp ninodes p (fun _ v => Points v p q ∧ Fine v q) (Cmd.writei q w) s := by
  refine wp_op ha (fun _ u v _ huv hu => ⟨hu.1.rely huv, hu.2.stays (huv.stays q hu.1) huv.onward⟩)
    fun t hst ht hat => ⟨(hat.locks q).2 hl, fun c r u hexec hk => ?_⟩
  have hqt := And.intro (hq.1.rely hst) (hq.2.stays (hst.stays q hq.1) hst.onward)
  refine ⟨?_, hqt.2.stays (hk.stays q trivial hqt.1) hk.onward⟩
  simp only [exec] at hexec
  split at hexec
  · cases hexec
    exact hqt.1
  · split at hexec
    · cases hexec
      exact hqt.1
    · cases hexec
      exact hqt.1

theorem wp_iunlock_points (ha : At p a s) (hl : q ∈ a.locks) (hq : Points s p q ∧ Fine s q) :
    wp ninodes p (fun _ v => Points v p q ∧ Fine v q) (Cmd.iunlock q) s := by
  refine wp_op ha (fun _ u v _ huv hu => ⟨hu.1.rely huv, hu.2.stays (huv.stays q hu.1) huv.onward⟩)
    fun t hst ht hat => ⟨hat.freeing q hl, fun c r u hexec hk => ?_⟩
  have hqt := And.intro (hq.1.rely hst) (hq.2.stays (hst.stays q hq.1) hst.onward)
  refine ⟨?_, hqt.2.stays (hk.stays q trivial hqt.1) hk.onward⟩
  simp only [exec] at hexec
  split at hexec
  · cases hexec
    exact hqt.1
  · cases hexec

/-- Between two chunks `filewrite` has no lock, but still its pointer. -/
theorem wp_filewrite (l : List Chunk) (ha : At p a s) (hs : Inv s) (hi : Idle a)
    (hq : Points s p q ∧ Fine s q) :
    Ends ninodes p (filewrite q l) s := by
  induction l generalizing s with
  | nil => exact wp_done ha hi ()
  | cons c l ih =>
    refine wp_seq (wp_ilock_file ha hs hi hq) fun _ t _ ht => ?_
    have hmem := Finset.mem_insert_self q a.locks
    refine wp_seq (wp_and (wp_writei ht.1 hmem c)
      (wp_writei_points ht.1 hmem ht.2.2 c)) fun ok u _ hu => ?_
    refine wp_seq (wp_and (wp_iunlock hu.1.1 rfl ht.2.1)
      (wp_iunlock_points hu.1.1 hmem hu.2)) fun _ w hw hunl => ?_
    exact wp_ite (fun _ => ih hunl.1.1 hw hunl.2) fun _ => wp_done hunl.1.1 hi ()

theorem wp_sysWrite (ha : At p a s) (hi : Idle a) (fd : Fin NOFILE) (l : List Chunk) :
    Ends ninodes p (sysWrite fd l) s := by
  refine wp_seq (wp_file ha fd) fun r t ht hfile => ?_
  obtain ⟨hat, -, hpoints⟩ := hfile
  cases r with
  | none => exact wp_done hat hi ()
  | some x =>
    obtain ⟨ip, w, d⟩ := x
    exact wp_ite (fun _ => wp_filewrite l hat ht hi (hpoints ip w d rfl)) fun _ => wp_done hat hi ()

/-- `fileclose`, with the `iput` that follows the last descriptor. -/
theorem wp_close (ha : At p a s) (hl : a.locks = ∅) (fd : Fin NOFILE) : wp ninodes p
    (fun _ v => At p { a with ofile := Function.update a.ofile fd none } v) (sysClose fd) s := by
  refine wp_seq (wp_fileclose ha hl fd) fun r t _ hclose => ?_
  obtain ⟨-, hclose⟩ := hclose
  cases r with
  | none => exact wp_ret _ fun v htv _ => hclose.rely htv
  | some ip =>
    exact wp_mono (wp_iput hclose.1 rfl (by simp [hl]) hclose.2) fun _ v _ hv => hv.1

theorem wp_sysDup (ha : At p a s) (hi : Idle a) (fd : Fin NOFILE) :
    Ends ninodes p (sysDup fd) s := by
  refine wp_seq (wp_dup ha fd) fun _ t _ ht => ?_
  obtain ⟨⟨o, hat⟩, -⟩ := ht
  exact wp_done hat ⟨hi.held, hi.locks, hi.fresh, hi.cwd⟩ ()

theorem wp_execReads (n : Nat) (ha : At p a s) (hl : q ∈ a.locks) : wp ninodes p
    (fun _ v => At p a v ∧ Keep a.held s v) (execReads q n) s := by
  induction n generalizing s with
  | zero => exact wp_ret _ fun v hsv _ => ⟨ha.rely hsv, ha.keep hsv⟩
  | succ n ih =>
    refine wp_seq (wp_readi ha hl) fun _ t _ ht => ?_
    exact wp_mono (ih ht.1) fun _ v _ hv => ⟨hv.1, ht.2.trans hv.2⟩

theorem wp_sysExec (ha : At p a s) (hi : Idle a) (path : Path) (n : Nat) :
    Ends ninodes p (sysExec path n) s := by
  refine wp_walked ha hi false path rfl (fun _ _ => rfl) fun ip name _ u _ hau hql _ hsure _ => ?_
  have hmem := Multiset.mem_cons_self ip a.held
  refine wp_seq (wp_execReads n hau (Finset.mem_insert_self ip _)) fun _ w _ hw => ?_
  exact wp_iunlockput_done hw.1 hi hql (hsure.keep hw.2 hmem)

theorem wp_exitFiles (l : List (Fin NOFILE)) (ha : At p a s) (hl : a.locks = ∅) :
    wp ninodes p (fun _ v => ∃ o, At p { a with ofile := o } v ∧
      (∀ fd ∈ l, o fd = none) ∧ ∀ fd, a.ofile fd = none → o fd = none) (exitFiles l) s := by
  induction l generalizing a s with
  | nil =>
    exact wp_ret _ fun v hsv _ =>
      ⟨a.ofile, ha.rely hsv, fun fd hfd => absurd hfd List.not_mem_nil, fun _ h => h⟩
  | cons fd l ih =>
    refine wp_seq (wp_close ha hl fd) fun _ t _ ht => ?_
    refine wp_mono (ih ht hl) fun _ v _ hv => ?_
    obtain ⟨o, hav, hl', hkeep⟩ := hv
    refine ⟨o, hav, fun fd' hfd' => ?_, fun fd' hfd' => hkeep fd' ?_⟩
    · rcases List.mem_cons.1 hfd' with rfl | hfd'
      · exact hkeep fd' (Function.update_self ..)
      · exact hl' fd' hfd'
    · by_cases heq : fd' = fd
      · exact heq ▸ Function.update_self ..
      · exact (Function.update_of_ne heq ..).trans hfd'

theorem wp_sysExit (ha : At p a s) (hi : Idle a) :
    Ends ninodes p sysExit s := by
  refine wp_seq (wp_exitFiles (List.finRange NOFILE) ha hi.locks) fun _ t _ ht => ?_
  obtain ⟨o, hat, hall, -⟩ := ht
  refine wp_seq (wp_takeCwd hat) fun q u _ hu => ?_
  refine wp_seq (wp_iput hu.1 rfl (by simp [hi.locks]) hu.2.2) fun _ w _ hw => ?_
  exact wp_exit hw.1 hi.held hi.locks hi.fresh rfl fun fd => hall fd (List.mem_finRange fd)

/-- Every call keeps to the protocol. -/
theorem wp_body (hr : Ready p s) (hused : s.used p = true) (c : Call ι) :
    Ends ninodes p c.body s := by
  obtain ⟨a, ha, hi⟩ := hr.own hused
  cases c with
  | «open» path omode refuse => exact wp_sysOpen ha hi path omode refuse
  | mkdir path => exact wp_createAndPut ha hi (by simp) path
  | mknod path => exact wp_createAndPut ha hi (by simp) path
  | link old new => exact wp_sysLink ha hi old new
  | unlink path => exact wp_sysUnlink ha hi path
  | chdir path => exact wp_sysChdir ha hi path
  | read fd => exact wp_sysRead ha hi fd
  | fstat fd => exact wp_sysFstat ha hi fd
  | write fd l => exact wp_sysWrite ha hi fd l
  | close fd =>
    exact wp_mono (wp_close ha hi.locks fd) fun _ v _ hv =>
      hv.ready ⟨hi.held, hi.locks, hi.fresh, hi.cwd⟩
  | dup fd => exact wp_sysDup ha hi fd
  | exec path n => exact wp_sysExec ha hi path n
  | fork child =>
        exact wp_seq (wp_fork ha child) fun _ t _ ht => wp_done ht.1 hi ()
  | exit => exact wp_sysExit ha hi

end Xv6.Itable
