import Shfs.Operations

/-!
# What every command keeps

A property of the far side that no command breaks is kept by the functions that send any number of
them: those of the file cache (`Fops.Keeps`) and `shfs_notify_change` (`Aops.Keeps`). The lemmas
behind them go once through the code of these functions; `World.send_keeps` and `World.ifOk_keeps`
do the same for the operations, which send their commands one after the other.
-/

namespace Shfs

open Lib

section Cache

variable {σ : Type} (P : σ → Prop)

/-- A read or a write keeps the property. -/
structure Fops.Keeps (ops : Fops σ) : Prop where
  read : ∀ name off n ino s, P s → P (ops.read name off n ino s).remote
  write : ∀ name off d ino s, P s → P (ops.write name off d ino s).remote

/-- So does every command of a request. -/
def Aops.Keeps (aops : Aops σ) : Prop :=
  ∀ attr a name s, P s → P ((AttrCmd.op aops attr a) name s).remote

variable {P} {ops : Fops σ} {size fuel : ℕ} {f : File} {mem : Memory} {s : Slot σ}

theorem fcacheFileOpen_remote (mem : Memory) (f : File) (s : Slot σ) :
    (fcacheFileOpen mem f s).2.remote = s.remote := by
  unfold fcacheFileOpen
  split
  · rfl
  · exact s.alloc_remote mem

/-- What is kept by the write of the buffer is kept by a sync. -/
theorem fcacheFileSync_keeps' (hs : P s.remote)
    (hwrite : ∀ ino, ∀ c ∈ s.cache,
      P (ops.write (getName f.dentry f.stack).2 c.offset c.held ino s.remote).remote) :
    P (fcacheFileSync ops f s).2.remote := by
  unfold fcacheFileSync
  cases f.check with
  | error e => exact hs
  | ok ino =>
    cases hc : s.cache with
    | none => exact hs
    | some c =>
      dsimp only
      split
      · rw [if_neg (getName_nonneg f.dentry f.stack)]
        exact hwrite ino c hc
      · exact hs

theorem fcacheFileSync_keeps (h : ops.Keeps P) (hs : P s.remote) :
    P (fcacheFileSync ops f s).2.remote :=
  fcacheFileSync_keeps' hs fun _ _ _ => h.write _ _ _ _ _ hs

theorem fcacheFileClose_remote (f : File) (s : Slot σ) :
    (fcacheFileClose ops f s).2.remote = (fcacheFileSync ops f s).2.remote := by
  unfold fcacheFileClose
  rcases fcacheFileSync ops f s with ⟨r, s'⟩
  cases r with
  | error e => rfl
  | ok u =>
    dsimp only
    split <;> rfl

theorem fcacheFileClose_keeps (h : ops.Keeps P) (hs : P s.remote) :
    P (fcacheFileClose ops f s).2.remote := by
  rw [fcacheFileClose_remote]
  exact fcacheFileSync_keeps h hs

theorem Reading.flush_keeps (h : ops.Keeps P) (ino : ℕ) {v : Reading σ} (hv : P v.remote) :
    P (v.flush ops ino).remote := by
  unfold Reading.flush
  split
  · exact h.write _ _ _ _ _ hv
  · exact hv

/-- A round of a read leaves the far side as its command does. -/
theorem Reading.fill_of_request {v : Reading σ} (hreq : P (v.request ops size).remote) :
    Sum.elim (fun b => P b.2.remote) (fun v => P v.remote) (v.fill ops size) := by
  cases hr : (v.request ops size).result with
  | error e =>
    obtain ⟨v', heq, -, hremote⟩ := Reading.fill_error ops size hr
    rw [heq]
    exact (congrArg P hremote).mpr hreq
  | ok d =>
    obtain ⟨v', heq, -, hremote, -⟩ := Reading.fill_ok ops size hr
    rw [heq]
    exact (congrArg P hremote).mpr hreq

/-- The rounds of a read. -/
theorem Reading.loop_keeps (h : ∀ name off n ino s, P s → P (ops.read name off n ino s).remote)
    {v : Reading σ} {r : (Errno × Reading σ) ⊕ Reading σ} (hv : P v.remote)
    (hr : loop (fun v => decide (v.count ≠ 0)) (Reading.fill ops size) fuel v = some r) :
    Sum.elim (fun b => P b.2.remote) (fun v => P v.remote) r := by
  have := loop_rule (fun v : Reading σ => P v.remote) (fun b => P b.2.remote)
    (fun v hv _ => Reading.fill_of_request (h _ _ _ _ _ hv)) hv hr
  cases r with
  | inl b => exact this
  | inr v => exact this.1

/-- What is kept on the way to the rounds of a read is kept by the read. -/
theorem fcacheFileRead_keeps'
    (hread : ∀ name off n ino s, P s → P (ops.read name off n ino s).remote) {offset count : ℕ}
    {r : Except Errno Bytes × Slot σ} (hs : P s.remote)
    (hflush : ∀ ino name, ∀ c ∈ (s.alloc mem).cache,
      P ((⟨name, offset, count, [], c, (s.alloc mem).remote⟩ : Reading σ).hit.flush ops ino).remote)
    (hr : fcacheFileRead ops size fuel mem f offset count s = some r) : P r.2.remote := by
  obtain ⟨e, hcheck, rfl⟩ | ⟨ino, hcheck, ⟨hc, q, rfl, rfl⟩ | ⟨c, out, hc, hout, rfl⟩⟩ :=
    fcacheFileRead_cases hr
  · exact hs
  · exact hread _ _ _ _ _ ((s.alloc_remote mem).symm ▸ hs)
  · have := Reading.loop_keeps hread (hflush ino _ c hc) hout
    cases out with
    | inl b => exact this
    | inr v => exact this

theorem fcacheFileRead_keeps (h : ops.Keeps P) {offset count : ℕ} {r : Except Errno Bytes × Slot σ}
    (hs : P s.remote) (hr : fcacheFileRead ops size fuel mem f offset count s = some r) :
    P r.2.remote := by
  refine fcacheFileRead_keeps' h.read hs (fun ino name c _ => Reading.flush_keeps h ino ?_) hr
  rw [(Reading.hit_name _).2]
  exact (s.alloc_remote mem).symm ▸ hs

/-- Commands one after the other. -/
theorem Change.foldl_keeps {aops : Aops σ} (h : aops.Keeps P) {info : MountOpts}
    {verdicts : Verdicts} {attr : Iattr} {v : Change σ} (hv : P v.remote) (l : List AttrCmd) :
    P (l.foldl (Change.step aops info verdicts attr) v).remote := by
  induction l generalizing v with
  | nil => exact hv
  | cons a l ih =>
    refine ih ?_
    cases hr : v.result with
    | error e =>
      have : Change.step aops info verdicts attr v a = v := by
        unfold Change.step
        rw [hr]
      rw [this]
      exact hv
    | ok n =>
      rw [(Change.step_ok aops info verdicts attr hr a).2.1]
      exact h attr a v.name v.remote hv

theorem shfsNotifyChange_keeps {aops : Aops σ} (h : aops.Keeps P) {info : MountOpts}
    {verdicts : Verdicts} {attr : Iattr} {d : Dentry} {stack : Bytes} {inode : Stat} {s : σ}
    (hs : P s) : P (shfsNotifyChange aops info verdicts d stack attr inode s).2.2 := by
  rw [shfsNotifyChange_eq]
  cases verdicts.change with
  | error e => exact hs
  | ok u =>
    dsimp only
    split
    · exact hs
    · exact Change.foldl_keeps h hs attr.asks

end Cache

/-! ## Operations -/

section World

variable {τ : Type} {sb : SuperBlock τ}

@[simp] theorem World.named_eq {ρ : Type} (d : Dentry) (stack : Bytes) (w : World τ)
    (k : Bytes → Except Errno ρ × World τ) : w.named d stack k = k (getName d stack).2 :=
  if_neg (getName_nonneg d stack)

/-- The far side behind `readlink` is the one behind its command. -/
theorem World.readlink_snd (name realName : Bytes) (w : World τ) :
    (w.readlink sb name realName).2.2 =
      (w.send (fun c t => ((.ok (sb.host.link c t).1 : Except Errno LinkAnswer),
        (sb.host.link c t).2)) (shellReadlinkCmd · realName) name).2 := by
  unfold World.readlink
  split
  · next h => exact (congrArg Prod.snd h).symm
  · next h => exact (congrArg Prod.snd h).symm

theorem shfsReadlink_snd (d : Dentry) (stack realName : Bytes) (w : World τ) :
    (shfsReadlink sb d stack realName w).2 =
      (w.readlink sb (getName d stack).2 realName).2.2 := by
  rw [shfsReadlink, World.named_eq]
  split
  · next h => rw [h]
  · next h => rw [h]

theorem shfsFollowLink_snd (d : Dentry) (stack realName : Bytes) (w : World τ) :
    (shfsFollowLink sb d stack realName w).2 =
      (w.readlink sb (getName d stack).2 realName).2.2 := by
  rw [shfsFollowLink]
  dsimp only
  rw [if_neg (getName_nonneg d stack)]
  split
  · next h => rw [h]
  · next h => rw [h]

@[simp] theorem World.lock_inodes (w : World τ) : (w.lock sb).inodes = w.inodes := rfl

@[simp] theorem World.unlock_inodes (w : World τ) : (w.unlock sb).inodes = w.inodes := rfl

@[simp] theorem World.update_far (w : World τ) (i : ℕ) (f : VInode → VInode) :
    (w.update i f).far = w.far := rfl

@[simp] theorem World.putSlot_far (w : World τ) (i : ℕ) (s : Slot (Far τ)) :
    (w.putSlot i s).far = s.remote := rfl

@[simp] theorem World.slot_remote (w : World τ) (i : ℕ) : (w.slot i).remote = w.far := rfl

@[simp] theorem shfsIget_far (ino : ℕ) (memory : Bool) (fattr : Fattr) (w : World τ) :
    (shfsIget sb ino memory fattr w).2.far = w.far := by
  unfold shfsIget
  split <;> rfl

@[simp] theorem shfsFillCache_far (fattr : Fattr) (w : World τ) (target : FillTarget) :
    (shfsFillCache sb fattr w target).far = w.far := by
  cases target with
  | existing i => rfl
  | new new => exact shfsIget_far ..
  | nowhere => rfl

/-- The entries of a listing are no business of the far side. -/
theorem lsLoop_fillLine_far (residue : Bytes → Bytes) (lost : Errno) (lines : List Bytes)
    (v : World τ × List (FillTarget × Bool)) :
    (lsLoop (fillLine sb residue) lost lines v).2.1.far = v.1.far := by
  induction lines generalizing v with
  | nil => rfl
  | cons s lines ih =>
    have hline : (fillLine sb residue v s).1.1.far = v.1.far := by
      unfold fillLine
      cases lsEntry sb.fmask sb.clock (s ++ 0 :: residue s) with
      | none => rfl
      | some e =>
        dsimp only
        split
        · rfl
        · exact shfsFillCache_far ..
    unfold lsLoop
    split
    · rfl
    · split
      · rfl
      · split
        · exact (ih _).trans hline
        · exact hline

/-- What follows a call that succeeds. -/
theorem World.ifOk_keeps {ρ ρ' : Type} {P : World τ → Prop} {r : Except Errno ρ × World τ}
    {k : ρ → World τ → Except Errno ρ' × World τ} (hr : P r.2) (hk : ∀ x w, P w → P (k x w).2) :
    P (World.ifOk r k).2 := by
  obtain ⟨result, w⟩ := r
  cases result with
  | error e => exact hr
  | ok x => exact hk x w hr

/-- A round of `shfs_file_readpage` leaves the state as its read does. -/
theorem Paging.round_of_read {P : World τ → Prop} {fuel : ℕ} {n : Node} {stack : Bytes}
    {mem : Memory} {v : Paging τ} (h : ∀ r, v.read sb fuel n stack mem = some r → P r.2) :
    Sum.elim (fun b => b.1 = none ∨ P b.2) (fun v => P v.world) (v.round sb fuel n stack mem) := by
  unfold Paging.round
  rcases hr : v.read sb fuel n stack mem with _ | ⟨result, w⟩
  · exact .inl rfl
  · have hw := h _ hr
    cases result with
    | error e => exact .inr hw
    | ok data =>
      dsimp only
      split
      · exact .inr hw
      · exact hw

end World

end Shfs
