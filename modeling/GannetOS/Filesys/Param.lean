/-
The functions of `Filesys.Fs` do not depend on the monad they run in.

They are written for any monad with an `FsState`. If a relation between the programs of two such monads holds of the
accesses to that state, and of the strings and buffers a function is given, it holds of the function: one lemma for each.
`Keeping` is about programs that leave the descriptors alone, `Sharing` allows every access.

With one monad the lemmas say what a call can do to the descriptors, whatever the disk holds and whichever I/O fails:
`fs_open` opens the one it returns, `fs_read`, `fs_write` and `fs_close` open none.
-/
import GannetOS.Core.Rel
import GannetOS.Filesys.Fs

namespace GannetOS.Filesys

open GannetOS.Core

variable {m n : Type → Type} [Monad m] [Monad n]

/-! ## Strings -/

/-- what the functions do with a path -/
structure PathRel (R : MonadRel m n) (a : StrArg m) (b : StrArg n) : Prop where
  eqLeft : ∀ l, R.rel (strEq a (StrArg.ofBytes l)) (strEq b (StrArg.ofBytes l))
  eqRight : ∀ l, R.rel (strEq (StrArg.ofBytes l) a) (strEq (StrArg.ofBytes l) b)
  parent : R.rel (fsGetParent a fun _ _ => pure ()) (fsGetParent b fun _ _ => pure ())
  copy : ∀ max, R.rel (strCopy (fun _ _ => pure ()) a max) (strCopy (fun _ _ => pure ()) b max)

variable {R : MonadRel m n}

section
variable {a c : StrArg m} {b d : StrArg n}

theorem strEqLoop_rel (h₁ : ∀ i, R.rel (a.rd i) (b.rd i)) (h₂ : ∀ i, R.rel (c.rd i) (d.rd i)) (k i : ℕ) :
    R.rel (strEqLoop a c k i) (strEqLoop b d k i) := by
  induction k generalizing i with
  | zero => exact R.pure _
  | succ k ih =>
    refine R.bind (h₁ i) fun x => ?_
    split_ifs
    · exact R.bind (h₂ i) fun y => R.pure _
    · refine R.bind (h₂ i) fun y => ?_
      split_ifs
      · exact R.pure _
      · exact R.pure _
      · exact ih (i + 1)

theorem strLenLoop_rel (h : ∀ i, R.rel (a.rd i) (b.rd i)) (k i : ℕ) : R.rel (strLenLoop a k i) (strLenLoop b k i) := by
  induction k generalizing i with
  | zero => exact R.pure _
  | succ k ih =>
    refine R.bind (h i) fun x => ?_
    split_ifs
    · exact R.pure _
    · exact ih (i + 1)

theorem lastSlashLoop_rel (h : ∀ i, R.rel (a.rd i) (b.rd i)) (k i last : ℕ) :
    R.rel (lastSlashLoop a k i last) (lastSlashLoop b k i last) := by
  induction k generalizing i last with
  | zero => exact R.pure _
  | succ k ih =>
    refine R.bind (h i) fun x => ?_
    split_ifs
    · exact ih (i + 1) i
    · exact ih (i + 1) last

theorem strCopyLoop_rel {wr : ℕ → UInt8 → m Unit} {wr' : ℕ → UInt8 → n Unit} (h : ∀ i, R.rel (a.rd i) (b.rd i))
    (hwr : ∀ i c, R.rel (wr i c) (wr' i c)) (k i : ℕ) : R.rel (strCopyLoop wr a k i) (strCopyLoop wr' b k i) := by
  induction k generalizing i with
  | zero => exact R.bind (hwr i 0) fun _ => R.pure _
  | succ k ih =>
    refine R.bind (h i) fun x => ?_
    split_ifs
    · exact R.bind (hwr i 0) fun _ => R.pure _
    · exact R.bind (h i) fun c => R.bind (hwr i c) fun _ => R.bind (ih (i + 1)) fun _ => R.pure _

/-- a string whose bytes can be read anywhere -/
theorem pathRel_of_rd (hfuel : a.fuel = b.fuel) (h : ∀ i, R.rel (a.rd i) (b.rd i)) : PathRel R a b := by
  have hbytes : ∀ (l : List UInt8) i, R.rel ((StrArg.ofBytes l : StrArg m).rd i) ((StrArg.ofBytes l : StrArg n).rd i) :=
    fun l i => R.pure _
  refine ⟨fun l => ?_, fun l => ?_, ?_, fun max => strCopyLoop_rel h (fun _ _ => R.pure _) _ _⟩
  · rw [strEq, strEq, hfuel]
    exact strEqLoop_rel h (hbytes l) _ _
  · rw [strEq, strEq, hfuel]
    exact strEqLoop_rel (hbytes l) h _ _
  · unfold fsGetParent strLen
    rw [hfuel]
    refine R.bind (strLenLoop_rel h _ _) fun len => R.bind (lastSlashLoop_rel h _ _ _) fun last => ?_
    split_ifs
    · exact R.bind (R.pure _) fun _ => R.bind (R.pure _) fun _ => R.pure _
    · exact R.bind (strCopyLoop_rel h (fun _ _ => R.pure _) _ _) fun _ => R.bind (R.pure _) fun _ => R.pure _

theorem pathRel_ofBytes (l : List UInt8) : PathRel R (StrArg.ofBytes l : StrArg m) (StrArg.ofBytes l) :=
  pathRel_of_rd rfl fun _ => R.pure _

theorem newInode_rel (hp : PathRel R a b) (type : UInt8) : R.rel (newInode a type) (newInode b type) :=
  R.bind (hp.copy _) fun _ => R.pure _

end

/-! ## Accesses to the filesystem -/

variable [MonadStateOf FsState m] [MonadStateOf FsState n]

/-- the relation holds of every access that leaves the descriptors alone -/
structure Keeping (R : MonadRel m n) : Prop where
  get : R.rel (getFs : m FsState) getFs
  access : ∀ {α : Type} (f : FsState → α × FsState), (∀ s, (f s).2.fds = s.fds) →
    R.rel (MonadStateOf.modifyGet f : m α) (MonadStateOf.modifyGet f)

/-- the relation holds of every access -/
structure Sharing (R : MonadRel m n) : Prop where
  get : R.rel (getFs : m FsState) getFs
  access : ∀ {α : Type} (f : FsState → α × FsState), R.rel (MonadStateOf.modifyGet f : m α) (MonadStateOf.modifyGet f)

theorem Sharing.keeping (h : Sharing R) : Keeping R := ⟨h.get, fun f _ => h.access f⟩

/-! ## Functions that leave the descriptors alone -/

section
variable (h : Keeping R)
include h

theorem modifyFs_rel (f : FsState → FsState) (hf : ∀ s, (f s).fds = s.fds) : R.rel (modifyFs f : m Unit) (modifyFs f) :=
  h.access _ hf

theorem ataReadSector_rel (lba : ℕ) : R.rel (ataReadSector lba : m _) (ataReadSector lba) :=
  h.access _ fun s => by split <;> rfl

theorem ataWriteSector_rel (lba : ℕ) (buf : Sector) : R.rel (ataWriteSector lba buf : m _) (ataWriteSector lba buf) :=
  h.access _ fun s => by
    split
    · rfl
    · split_ifs <;> rfl

theorem inodeRead_rel (i : ℕ) : R.rel (inodeRead i : m _) (inodeRead i) := by
  unfold inodeRead
  split_ifs
  · exact R.pure _
  · refine R.bind (ataReadSector_rel h _) fun sb => ?_
    cases sb <;> exact R.pure _

theorem inodeWrite_rel (i : ℕ) (x : Inode) : R.rel (inodeWrite i x : m _) (inodeWrite i x) := by
  unfold inodeWrite
  split_ifs
  · exact R.pure _
  · refine R.bind (ataReadSector_rel h _) fun sb => ?_
    cases sb with
    | none => exact R.pure _
    | some sb => exact ataWriteSector_rel h _ _

theorem bmSetRun_rel (rel k : ℕ) : R.rel (bmSetRun rel k : m _) (bmSetRun rel k) := by
  induction k with
  | zero => exact R.pure _
  | succ k ih => exact R.bind ih fun _ => modifyFs_rel h _ fun _ => rfl

theorem bmClrRun_rel (rel k : ℕ) : R.rel (bmClrRun rel k : m _) (bmClrRun rel k) := by
  induction k with
  | zero => exact R.pure _
  | succ k ih => exact R.bind ih fun _ => modifyFs_rel h _ fun _ => rfl

theorem bmAlloc_rel (count : ℕ) : R.rel (bmAlloc count : m _) (bmAlloc count) := by
  refine R.bind h.get fun s => ?_
  cases firstFit s.bitmap s.dataSectorCount count with
  | none => exact R.pure _
  | some i => exact R.bind (bmSetRun_rel h _ _) fun _ => R.pure _

theorem freeInodeLoop_rel (is : List ℕ) : R.rel (freeInodeLoop is : m _) (freeInodeLoop is) := by
  induction is with
  | nil => exact R.pure _
  | cons i is ih =>
    refine R.bind (inodeRead_rel h i) fun x => ?_
    cases x with
    | none => exact ih
    | some x =>
      dsimp only
      split_ifs
      · exact R.pure _
      · exact ih

theorem freeInode_rel : R.rel (freeInode : m _) freeInode := freeInodeLoop_rel h (List.range fsMaxInodes)

section
variable {a : StrArg m} {b : StrArg n} (hp : PathRel R a b)
include hp

theorem fsFindLoop_rel (is : List ℕ) : R.rel (fsFindLoop a is) (fsFindLoop b is) := by
  induction is with
  | nil => exact R.pure _
  | cons i is ih =>
    refine R.bind (inodeRead_rel h i) fun x => ?_
    cases x with
    | none => exact ih
    | some x =>
      dsimp only
      split_ifs
      · exact ih
      · refine R.bind (hp.eqRight _) fun e => ?_
        split_ifs
        · exact R.pure _
        · exact ih

theorem fsFind_rel : R.rel (fsFind a) (fsFind b) := fsFindLoop_rel h hp _

theorem fsIsdir_rel : R.rel (fsIsdir a) (fsIsdir b) := by
  refine R.bind (hp.eqLeft _) fun e => ?_
  split_ifs
  · exact R.pure _
  · refine R.bind (fsFind_rel h hp) fun i => ?_
    cases i with
    | none => exact R.pure _
    | some i =>
      refine R.bind (inodeRead_rel h i) fun x => ?_
      cases x <;> exact R.pure _

theorem parentExists_rel : R.rel (parentExists a) (parentExists b) :=
  R.bind hp.parent fun l => fsIsdir_rel h (pathRel_ofBytes l)

theorem fsMkdir_rel : R.rel (fsMkdir a) (fsMkdir b) := by
  refine R.bind (fsFind_rel h hp) fun i => ?_
  split_ifs
  · exact R.pure _
  refine R.bind (parentExists_rel h hp) fun e => ?_
  split_ifs
  · exact R.pure _
  refine R.bind (freeInode_rel h) fun i => ?_
  cases i with
  | none => exact R.pure _
  | some i => exact R.bind (newInode_rel hp _) fun x => inodeWrite_rel h i x

theorem noChildLoop_rel (idx : ℕ) (is : List ℕ) : R.rel (noChildLoop a idx is) (noChildLoop b idx is) := by
  induction is with
  | nil => exact R.pure _
  | cons i is ih =>
    unfold noChildLoop
    split_ifs
    · exact ih
    refine R.bind (inodeRead_rel h i) fun x => ?_
    cases x with
    | none => exact ih
    | some x =>
      dsimp only
      split_ifs
      · exact ih
      refine R.bind (pathRel_ofBytes _).parent fun parent => R.bind (hp.eqRight parent) fun e => ?_
      split_ifs
      · exact R.pure _
      · exact ih

theorem fsRmdir_rel : R.rel (fsRmdir a) (fsRmdir b) := by
  refine R.bind (hp.eqLeft _) fun e => ?_
  split_ifs
  · exact R.pure _
  refine R.bind (fsFind_rel h hp) fun i => ?_
  cases i with
  | none => exact R.pure _
  | some i =>
    refine R.bind (inodeRead_rel h i) fun x => ?_
    cases x with
    | none => exact R.pure _
    | some x =>
      dsimp only
      split_ifs
      · exact R.pure _
      refine R.bind (noChildLoop_rel h hp i _) fun e => ?_
      split_ifs
      · exact R.pure _
      · exact inodeWrite_rel h i _

theorem fsDelete_rel : R.rel (fsDelete a) (fsDelete b) := by
  refine R.bind (fsFind_rel h hp) fun i => ?_
  cases i with
  | none => exact R.pure _
  | some i =>
    refine R.bind (inodeRead_rel h i) fun x => ?_
    cases x with
    | none => exact R.pure _
    | some x =>
      dsimp only
      split_ifs
      · exact R.pure _
      · exact R.bind (bmClrRun_rel h _ _) fun _ => inodeWrite_rel h i _
      · exact inodeWrite_rel h i _

theorem rrmdrLoop_rel {f : StrArg m → m Bool} {g : StrArg n → n Bool}
    (hf : ∀ l, R.rel (f (StrArg.ofBytes l)) (g (StrArg.ofBytes l))) (idx : ℕ) (is : List ℕ) :
    R.rel (rrmdrLoop f a idx is) (rrmdrLoop g b idx is) := by
  induction is with
  | nil => exact R.pure _
  | cons i is ih =>
    unfold rrmdrLoop
    split_ifs
    · exact ih
    refine R.bind (inodeRead_rel h i) fun x => ?_
    cases x with
    | none => exact ih
    | some x =>
      dsimp only
      split_ifs
      · exact ih
      refine R.bind (pathRel_ofBytes _).parent fun parent => R.bind (hp.eqRight parent) fun e => ?_
      split_ifs
      · exact ih
      have hchild : R.rel (removeChild f x) (removeChild g x) := by
        unfold removeChild
        split_ifs
        · exact hf _
        · exact fsDelete_rel h (pathRel_ofBytes _)
      refine R.bind hchild fun e => ?_
      split_ifs
      · exact R.pure _
      · exact ih

theorem fsRrmdrDepth_rel (depth : ℕ) : R.rel (fsRrmdrDepth depth a) (fsRrmdrDepth depth b) := by
  induction depth generalizing a b with
  | zero => exact R.pure _
  | succ depth ih =>
    refine R.bind (hp.eqLeft _) fun e => ?_
    split_ifs
    · exact R.pure _
    refine R.bind (fsFind_rel h hp) fun i => ?_
    cases i with
    | none => exact R.pure _
    | some i =>
      refine R.bind (inodeRead_rel h i) fun x => ?_
      cases x with
      | none => exact R.pure _
      | some x =>
        dsimp only
        split_ifs
        · exact R.pure _
        refine R.bind (rrmdrLoop_rel h hp (fun l => ih (pathRel_ofBytes l)) i _) fun e => ?_
        split_ifs
        · exact R.pure _
        · exact inodeWrite_rel h i _

end

theorem readLoop_rel {out : ℕ → List UInt8 → m Unit} {out' : ℕ → List UInt8 → n Unit}
    (hout : ∀ i l, R.rel (out i l) (out' i l)) (start off len done : ℕ) :
    R.rel (readLoop out start off len done) (readLoop out' start off len done) := by
  induction hk : len - done using Nat.strong_induction_on generalizing done with
  | _ k ih =>
    rw [readLoop, readLoop]
    split_ifs with hlt
    · refine R.bind (ataReadSector_rel h _) fun sb => ?_
      cases sb with
      | none => exact R.pure _
      | some sb =>
        refine R.bind (hout _ _) fun _ => R.bind (ih _ ?_ _ rfl) fun r => ?_
        · omega
        · cases r <;> exact R.pure _
    · exact R.pure _

theorem copySectors_rel (src dst k i : ℕ) : R.rel (copySectors src dst k i : m _) (copySectors src dst k i) := by
  induction k generalizing i with
  | zero => exact R.pure _
  | succ k ih =>
    refine R.bind (ataReadSector_rel h _) fun sb => ?_
    cases sb with
    | none => exact R.pure _
    | some sb =>
      refine R.bind (ataWriteSector_rel h _ _) fun e => ?_
      split_ifs
      · exact R.pure _
      · exact ih (i + 1)

theorem writeLoop_rel {inp : ℕ → ℕ → m (List UInt8)} {inp' : ℕ → ℕ → n (List UInt8)}
    (hinp : ∀ i k, R.rel (inp i k) (inp' i k)) (start off len done : ℕ) (sb : Sector) :
    R.rel (writeLoop inp start off len done sb) (writeLoop inp' start off len done sb) := by
  induction hk : len - done using Nat.strong_induction_on generalizing done sb with
  | _ k ih =>
    rw [writeLoop, writeLoop]
    split_ifs with hlt
    · have hbase : ∀ lba so tc, R.rel (sectorBase lba so tc sb : m _) (sectorBase lba so tc sb) := by
        intro lba so tc
        unfold sectorBase
        split_ifs
        · exact ataReadSector_rel h _
        · exact R.pure _
      refine R.bind (hbase _ _ _) fun base => ?_
      cases base with
      | none => exact R.pure _
      | some base =>
        refine R.bind (hinp _ _) fun bytes => R.bind (ataWriteSector_rel h _ _) fun e => ?_
        split_ifs
        · exact R.pure _
        · exact ih _ (by omega) _ _ rfl
    · exact R.pure _

theorem growInode_rel (x : Inode) (need : ℕ) : R.rel (growInode x need : m _) (growInode x need) := by
  unfold growInode
  split_ifs
  · refine R.bind (bmAlloc_rel h _) fun rel => ?_
    cases rel <;> exact R.pure _
  · refine R.bind (bmAlloc_rel h _) fun rel => ?_
    cases rel with
    | none => exact R.pure _
    | some rel =>
      refine R.bind (copySectors_rel h _ _ _ _) fun e => ?_
      split_ifs
      · exact R.bind (bmClrRun_rel h _ _) fun _ => R.pure _
      · exact R.bind (bmClrRun_rel h _ _) fun _ => R.pure _

end

/-! ## Functions on descriptors -/

section
variable (h : Sharing R)
include h

theorem setFd_rel (fd : Fin 8) (e : Fd) : R.rel (setFd fd e : m Unit) (setFd fd e) := h.access _

theorem fsOpen_rel {a : StrArg m} {b : StrArg n} (hp : PathRel R a b) (create : Bool) :
    R.rel (fsOpen a create) (fsOpen b create) := by
  have hk := h.keeping
  refine R.bind h.get fun s => ?_
  cases (List.finRange 8).find? fun i => (s.fds i).inodeIdx.isNone with
  | none => exact R.pure _
  | some fd =>
    refine R.bind (fsFind_rel hk hp) fun i => ?_
    cases i with
    | none =>
      split_ifs
      · exact R.pure _
      refine R.bind (parentExists_rel hk hp) fun e => ?_
      split_ifs
      · exact R.pure _
      refine R.bind (freeInode_rel hk) fun i => ?_
      cases i with
      | none => exact R.pure _
      | some i =>
        refine R.bind (newInode_rel hp _) fun x => R.bind (inodeWrite_rel hk i x) fun e => ?_
        split_ifs
        · exact R.pure _
        · exact R.bind (setFd_rel h _ _) fun _ => R.pure _
    | some i =>
      refine R.bind (inodeRead_rel hk i) fun x => ?_
      cases x with
      | none => exact R.pure _
      | some x =>
        dsimp only
        split_ifs
        · exact R.pure _
        · exact R.bind (setFd_rel h _ _) fun _ => R.pure _

theorem fsClose_rel (fd : ℤ) : R.rel (fsClose fd : m Unit) (fsClose fd) := by
  unfold fsClose
  cases fdSlot fd with
  | none => exact R.pure _
  | some k => exact h.access _

end

/-! ## Reading and writing through one descriptor -/

section
variable (h : Keeping R)
include h

theorem fsRead_rel {out : ℕ → List UInt8 → m Unit} {out' : ℕ → List UInt8 → n Unit}
    (hout : ∀ i l, R.rel (out i l) (out' i l)) {fd : ℤ}
    (hset : ∀ k ∈ fdSlot fd, ∀ e, R.rel (setFd k e : m Unit) (setFd k e)) (len : ℕ) :
    R.rel (fsRead out fd len) (fsRead out' fd len) := by
  unfold fsRead
  cases hfd : fdSlot fd with
  | none => exact R.pure _
  | some k =>
    refine R.bind h.get fun s => ?_
    cases (s.fds k).inodeIdx with
    | none => exact R.pure _
    | some i =>
      refine R.bind (inodeRead_rel h i) fun x => ?_
      cases x with
      | none => exact R.pure _
      | some x =>
        dsimp only
        split_ifs
        · exact R.pure _
        · exact R.pure _
        refine R.bind (readLoop_rel h hout _ _ _ _) fun r => ?_
        cases r with
        | none => exact R.pure _
        | some r => exact R.bind (hset k hfd _) fun _ => R.pure _

theorem putData_rel {inp : ℕ → ℕ → m (List UInt8)} {inp' : ℕ → ℕ → n (List UInt8)}
    (hinp : ∀ i k, R.rel (inp i k) (inp' i k)) {fd : Fin 8} (hset : ∀ e, R.rel (setFd fd e : m Unit) (setFd fd e))
    (idx offset len : ℕ) (x : Inode) : R.rel (putData inp fd idx offset len x) (putData inp' fd idx offset len x) := by
  refine R.bind (writeLoop_rel h hinp _ _ _ _ _) fun e => ?_
  split_ifs
  · exact R.pure _
  all_goals exact R.bind (hset _) fun _ => R.bind (inodeWrite_rel h _ _) fun _ => R.pure _

theorem fsWrite_rel {inp : ℕ → ℕ → m (List UInt8)} {inp' : ℕ → ℕ → n (List UInt8)}
    (hinp : ∀ i k, R.rel (inp i k) (inp' i k)) {fd : ℤ}
    (hset : ∀ k ∈ fdSlot fd, ∀ e, R.rel (setFd k e : m Unit) (setFd k e)) (len : ℕ) :
    R.rel (fsWrite inp fd len) (fsWrite inp' fd len) := by
  unfold fsWrite
  cases hfd : fdSlot fd with
  | none => exact R.pure _
  | some k =>
    refine R.bind h.get fun s => ?_
    cases (s.fds k).inodeIdx with
    | none => exact R.pure _
    | some i =>
      split_ifs
      · exact R.pure _
      refine R.bind (inodeRead_rel h i) fun x => ?_
      cases x with
      | none => exact R.pure _
      | some x =>
        dsimp only
        split_ifs
        · refine R.bind (growInode_rel h _ _) fun y => ?_
          cases y with
          | none => exact R.pure _
          | some y =>
            refine R.bind (inodeWrite_rel h _ _) fun e => ?_
            split_ifs
            · exact R.bind (hset k hfd _) fun _ => R.pure _
            · exact putData_rel h hinp (hset k hfd) _ _ _ _
        · exact putData_rel h hinp (hset k hfd) _ _ _ _

end

/-! ## Which descriptors are open -/

namespace FsState

/-- descriptor `k` is open -/
def isOpen (s : FsState) (k : Fin 8) : Prop := (s.fds k).inodeIdx ≠ none

instance (s : FsState) (k : Fin 8) : Decidable (s.isOpen k) := inferInstanceAs (Decidable (_ ≠ _))

end FsState

/-- nothing is opened but perhaps descriptor `fd` -/
def opensOnly (fd : Fin 8) : MonadRel (StateM FsState) (StateM FsState) :=
  .keeps (fun s t => ∀ k, t.isOpen k → s.isOpen k ∨ k = fd) (fun _ _ hk => .inl hk)
    fun _ _ _ h₁ h₂ k hk => (h₂ k hk).elim (h₁ k) .inr

theorem keeping_opensOnly (fd : Fin 8) : Keeping (opensOnly fd) := by
  refine ⟨fun s k hk => .inl hk, fun f hf s k hk => .inl ?_⟩
  rw [FsState.isOpen] at hk ⊢
  rwa [← hf s]

theorem setFd_opensOnly (fd : Fin 8) (e : Fd) : (opensOnly fd).rel (setFd fd e) (setFd fd e) := by
  intro s k hk
  by_cases hkf : k = fd
  · exact .inr hkf
  · left
    simpa only [FsState.isOpen, setFd, modifyFs, modifyGet_apply, Function.update_of_ne hkf] using hk

variable {s : FsState} {k : Fin 8} {fd : ℤ}

/-- a call that sets its own descriptor only, and does nothing when that is not open, opens nothing -/
theorem isOpen_own {α : Type} {x : StateM FsState α} (fd : ℤ)
    (hown : ∀ j, (∀ k ∈ fdSlot fd, ∀ e, (opensOnly j).rel (setFd k e) (setFd k e)) → (opensOnly j).rel x x)
    (hidle : (∀ j ∈ fdSlot fd, (s.fds j).inodeIdx = none) → (x s).2 = s) (hk : (x s).2.isOpen k) :
    s.isOpen k := by
  by_cases hopen : ∃ j ∈ fdSlot fd, s.isOpen j
  · obtain ⟨j, hfd, hj⟩ := hopen
    have hset : ∀ k ∈ fdSlot fd, ∀ e, (opensOnly j).rel (setFd k e) (setFd k e) := by
      intro k hk e
      obtain rfl : j = k := Option.some.inj (hfd.symm.trans hk)
      exact setFd_opensOnly j e
    rcases hown j hset s k hk with hk | rfl
    · exact hk
    · exact hj
  · rwa [hidle fun j hj => not_not.1 fun hne => hopen ⟨j, hj, hne⟩] at hk

/-- `fs_read` opens nothing -/
theorem isOpen_fsRead {out : ℕ → List UInt8 → StateM FsState Unit}
    (hout : ∀ fd i l, (opensOnly fd).rel (out i l) (out i l)) {len : ℕ} (hk : (fsRead out fd len s).2.isOpen k) :
    s.isOpen k := by
  refine isOpen_own fd (fun j hset => fsRead_rel (keeping_opensOnly j) (hout j) hset len) (fun hnone => ?_) hk
  unfold fsRead
  cases hfd : fdSlot fd with
  | none => rfl
  | some j =>
    have hget : (getFs : StateM FsState _) s = (s, s) := rfl
    dsimp only
    rw [run_bind hget, hnone j hfd]
    rfl

/-- `fs_write` opens nothing -/
theorem isOpen_fsWrite {inp : ℕ → ℕ → StateM FsState (List UInt8)}
    (hinp : ∀ fd i l, (opensOnly fd).rel (inp i l) (inp i l)) {len : ℕ} (hk : (fsWrite inp fd len s).2.isOpen k) :
    s.isOpen k := by
  refine isOpen_own fd (fun j hset => fsWrite_rel (keeping_opensOnly j) (hinp j) hset len) (fun hnone => ?_) hk
  unfold fsWrite
  cases hfd : fdSlot fd with
  | none => rfl
  | some j =>
    have hget : (getFs : StateM FsState _) s = (s, s) := rfl
    dsimp only
    rw [run_bind hget, hnone j hfd]
    rfl

theorem isOpen_fsClose (hk : ((fsClose fd : StateM FsState _) s).2.isOpen k) :
    s.isOpen k ∧ fdSlot fd ≠ some k := by
  unfold fsClose at hk
  cases hfd : fdSlot fd with
  | none =>
    rw [hfd] at hk
    exact ⟨hk, by simp⟩
  | some j =>
    rw [hfd] at hk
    by_cases hkj : k = j
    · simp [FsState.isOpen, modifyFs, hkj] at hk
    · simp only [FsState.isOpen, modifyFs, modifyGet_apply, Function.update_of_ne hkj] at hk
      exact ⟨hk, fun he => hkj (Option.some.inj he).symm⟩

/-- all descriptors are left as they are -/
def keepsFds : MonadRel (StateM FsState) (StateM FsState) :=
  .keeps (fun s t => t.fds = s.fds) (fun _ => rfl) fun _ _ _ h₁ h₂ => h₂.trans h₁

theorem keeping_keepsFds : Keeping keepsFds := ⟨fun _ => rfl, fun _ hf s => hf s⟩

theorem isOpen_of_keepsFds {α : Type} {x : StateM FsState α} (hx : keepsFds.rel x x) (hk : (x s).2.isOpen k) :
    s.isOpen k := by
  have hfds : (x s).2.fds = s.fds := hx s
  rwa [FsState.isOpen, hfds] at hk

/-- `fs_open` opens the descriptor it returns and no other -/
theorem isOpen_fsOpen (p : CStr) {create : Bool} (hk : ((fsOpen p.arg create : StateM FsState _) s).2.isOpen k) :
    s.isOpen k ∨ ((fsOpen p.arg create : StateM FsState _) s).1 = some k := by
  -- what runs before the descriptor is set leaves all of them alone
  have hR := keeping_keepsFds
  have hp : PathRel keepsFds p.arg p.arg := pathRel_ofBytes p.bytes
  let Opens (x : StateM FsState (Option (Fin 8))) : Prop := ∀ s k, (x s).2.isOpen k → s.isOpen k ∨ (x s).1 = some k
  have hpure : ∀ r, Opens (pure r) := fun r s k hk => .inl hk
  have hbind : ∀ {α : Type} {x : StateM FsState α} {f : α → StateM FsState (Option (Fin 8))}, keepsFds.rel x x →
      (∀ a, Opens (f a)) → Opens (x >>= f) := by
    intro α x f hx hf s k hk
    rcases hf _ _ k hk with hk | hk
    · exact .inl (isOpen_of_keepsFds hx hk)
    · exact .inr hk
  have hset : ∀ fd e, Opens (do setFd fd e; return some fd) := by
    intro fd e s k hk
    rcases setFd_opensOnly fd e s k hk with hk | rfl
    · exact .inl hk
    · exact .inr rfl
  suffices hopens : Opens (fsOpen p.arg create) from hopens s k hk
  refine hbind hR.get fun s => ?_
  cases (List.finRange 8).find? fun i => (s.fds i).inodeIdx.isNone with
  | none => exact hpure _
  | some fd =>
    refine hbind (fsFind_rel hR hp) fun i => ?_
    cases i with
    | none =>
      split_ifs
      · exact hpure _
      refine hbind (parentExists_rel hR hp) fun e => ?_
      split_ifs
      · exact hpure _
      refine hbind (freeInode_rel hR) fun i => ?_
      cases i with
      | none => exact hpure _
      | some i =>
        refine hbind (newInode_rel hp _) fun x => hbind (inodeWrite_rel hR i x) fun e => ?_
        split_ifs
        · exact hpure _
        · exact hset fd _
    | some i =>
      refine hbind (inodeRead_rel hR i) fun x => ?_
      cases x with
      | none => exact hpure _
      | some x =>
        dsimp only
        split_ifs
        · exact hpure _
        · exact hset fd _

end GannetOS.Filesys
