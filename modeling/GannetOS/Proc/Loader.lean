/-
`load_pexe_blob` of `kernel/proc/loader.c`: a program file is read into exec_buf and checked.

The loader works on the filesystem and on exec_buf (`Loader`). It calls the same `fs_open`, `fs_read` and `fs_close` as
everybody else, with exec_buf as the buffer of the second read, so a read that fails in the middle leaves what it has
stored. A program is accepted or rejected by what its file holds (`Accepts`):
- `loadPexeBlob_accepts`: an accepted file ends up in exec_buf with zeros up to mem_size, and the descriptor is closed;
- `loadPexeBlob_rejects`: any other file gives no program;
- `isOpen_loadPexeBlob`: whatever happens, no descriptor is left open.
-/
import GannetOS.Filesys.Param
import GannetOS.Filesys.Content
import GannetOS.Proc.Task

namespace GannetOS.Proc

open GannetOS.Core GannetOS.Filesys

/-! ## State -/

/-- what `load_pexe_blob` works on; exec_buf is at APP_LOAD_ADDR -/
structure Loader where
  fs : FsState
  execBuf : ℕ → UInt8

namespace Loader

instance : MonadStateOf FsState (StateM Loader) where
  get := fun s => (s.fs, s)
  set fs := fun s => ((), { s with fs := fs })
  modifyGet f := fun s => ((f s.fs).1, { s with fs := (f s.fs).2 })

def modifyExec (f : (ℕ → UInt8) → ℕ → UInt8) : StateM Loader Unit := fun s => ((), { s with execBuf := f s.execBuf })

end Loader

/-- `bytes` stored in a buffer from offset `off` on -/
def overlay (buf : ℕ → UInt8) (off : ℕ) (bytes : List UInt8) : ℕ → UInt8 := fun i =>
  if off ≤ i ∧ i < off + bytes.length then bytes.getD (i - off) 0 else buf i

/-- a chunk that `fs_read` delivers into exec_buf -/
def storeExec (off : ℕ) (bytes : List UInt8) : StateM Loader Unit := Loader.modifyExec fun buf => overlay buf off bytes

/-! ## The program file -/

def execBufSize : ℕ := 65536

def pexeMagic : UInt32 := 0x45584550

/-- struct pexe_header without its reserved word -/
structure PexeHeader where
  magic : UInt32
  entryOffset : UInt32
  memSize : UInt32
deriving DecidableEq, Repr

/-- the word at offset `k` of a byte string -/
def wordAt (l : List UInt8) (k : ℕ) : UInt32 := le32 (l.getD k 0) (l.getD (k + 1) 0) (l.getD (k + 2) 0) (l.getD (k + 3) 0)

def PexeHeader.ofBytes (l : List UInt8) : PexeHeader := ⟨wordAt l 0, wordAt l 4, wordAt l 8⟩

/-- the checks after the file has been read, `n` bytes of it into exec_buf -/
def PexeHeader.Bad (hdr : PexeHeader) (n : ℕ) : Prop :=
  hdr.memSize = 0 ∨ execBufSize < hdr.memSize.toNat ∨ hdr.memSize.toNat < n ∨ hdr.memSize ≤ hdr.entryOffset

instance (hdr : PexeHeader) (n : ℕ) : Decidable (hdr.Bad n) := by
  unfold PexeHeader.Bad
  infer_instance

/-- the program in exec_buf -/
def PexeHeader.blob (hdr : PexeHeader) {n : ℕ} (h : ¬ hdr.Bad n) (buf : ℕ → UInt8) : Blob where
  memSize := hdr.memSize.toNat
  bytes := buf
  pos := Nat.pos_of_ne_zero fun h0 => h (.inl (UInt32.toNat_inj.1 h0))
  le := not_lt.1 fun hlt => h (.inr (.inl hlt))

theorem PexeHeader.blob_memSize (hdr : PexeHeader) {n : ℕ} (h : ¬ hdr.Bad n) (buf : ℕ → UInt8) :
    (hdr.blob h buf).memSize = hdr.memSize.toNat := rfl

theorem PexeHeader.blob_bytes (hdr : PexeHeader) {n : ℕ} (h : ¬ hdr.Bad n) (buf : ℕ → UInt8) :
    (hdr.blob h buf).bytes = buf := rfl

/-- load_pexe_blob: the program and its entry address, exec_buf + entry_offset -/
def loadPexeBlob (path : StrArg (StateM Loader)) : StateM Loader (Option (Blob × UInt32)) := do
  match ← fsOpen path false with
  | none => return none
  | some fd =>
    match ← fsRead (fun _ _ => pure ()) fd.val 16 with
    | none =>
      fsClose fd.val
      return none
    | some bytes =>
      if bytes.length ≠ 16 ∨ (PexeHeader.ofBytes bytes).magic ≠ pexeMagic then
        fsClose fd.val
        return none
      let body ← fsRead storeExec fd.val execBufSize
      fsClose fd.val
      match body with
      | none => return none
      | some body =>
        if body.length = 0 then return none
        if h : (PexeHeader.ofBytes bytes).Bad body.length then return none
        else
          Loader.modifyExec fun buf i =>
            if body.length ≤ i ∧ i < (PexeHeader.ofBytes bytes).memSize.toNat then 0 else buf i
          fun s =>
            (some ((PexeHeader.ofBytes bytes).blob h s.execBuf, appLoadAddr + (PexeHeader.ofBytes bytes).entryOffset), s)

/-! ## The calls of the filesystem -/

/-- the calls do on `Loader.fs` what they do on their own, and exec_buf stays -/
def onFs : MonadRel (StateM FsState) (StateM Loader) :=
  .sim Loader.fs (fun s t => t.execBuf = s.execBuf) (fun _ => rfl) fun _ _ _ h₁ h₂ => h₂.trans h₁

theorem sharing_onFs : Sharing onFs := ⟨fun _ => ⟨rfl, rfl, rfl⟩, fun _ _ => ⟨rfl, rfl, rfl⟩⟩

theorem onFs_run {α : Type} {x : StateM FsState α} {y : StateM Loader α} (h : onFs.rel x y) (s : Loader) :
    y s = ((x s.fs).1, ⟨(x s.fs).2, s.execBuf⟩) := by
  obtain ⟨h₁, h₂, h₃⟩ := h s
  exact Prod.ext h₁ (by rw [← h₂, ← h₃])

theorem fsOpen_onFs (p : CStr) : onFs.rel (fsOpen p.arg false) (fsOpen p.arg false) :=
  fsOpen_rel sharing_onFs (pathRel_ofBytes p.bytes) false

theorem fsRead_onFs (fd : ℤ) (len : ℕ) :
    onFs.rel (fsRead (fun _ _ => pure ()) fd len) (fsRead (fun _ _ => pure ()) fd len) :=
  fsRead_rel sharing_onFs.keeping (fun _ _ => onFs.pure ()) (fun k _ e => setFd_rel sharing_onFs k e) len

/-- the same with exec_buf as the buffer of a read -/
def intoExec : MonadRel (StateM FsState) (StateM Loader) :=
  .sim Loader.fs (fun _ _ => True) (fun _ => trivial) fun _ _ _ _ _ => trivial

theorem sharing_intoExec : Sharing intoExec := ⟨fun _ => ⟨rfl, rfl, trivial⟩, fun _ _ => ⟨rfl, rfl, trivial⟩⟩

theorem storeExec_rel (i : ℕ) (l : List UInt8) : intoExec.rel (pure ()) (storeExec i l) := fun _ => ⟨rfl, rfl, trivial⟩

theorem fsRead_intoExec (fd : ℤ) (len : ℕ) : intoExec.rel (fsRead (fun _ _ => pure ()) fd len) (fsRead storeExec fd len) :=
  fsRead_rel sharing_intoExec.keeping storeExec_rel (fun k _ e => setFd_rel sharing_intoExec k e) len

theorem overlay_nil (buf : ℕ → UInt8) (off : ℕ) : overlay buf off [] = buf := by
  funext i
  exact if_neg (by simp)

theorem overlay_append (buf : ℕ → UInt8) (off : ℕ) (a b : List UInt8) :
    overlay (overlay buf off a) (off + a.length) b = overlay buf off (a ++ b) := by
  funext i
  simp only [overlay, List.length_append]
  by_cases h₁ : off + a.length ≤ i ∧ i < off + a.length + b.length
  · rw [if_pos h₁, if_pos (by omega), List.getD_append_right _ _ _ _ (by omega), Nat.sub_sub]
  · rw [if_neg h₁]
    by_cases h₂ : off ≤ i ∧ i < off + a.length
    · rw [if_pos h₂, if_pos (by omega), List.getD_append _ _ _ _ (by omega)]
    · rw [if_neg h₂, if_neg (by omega)]

/-- what the transfer loop returns is what it has stored -/
theorem readLoop_stores (start off len done : ℕ) {s : Loader} {bytes : List UInt8}
    (h : (readLoop storeExec start off len done s).1 = some bytes) :
    (readLoop storeExec start off len done s).2.execBuf = overlay s.execBuf done bytes := by
  induction hk : len - done using Nat.strong_induction_on generalizing done s bytes with
  | _ k ih =>
    rw [readLoop] at h ⊢
    split_ifs at h ⊢ with hlt
    · dsimp only at h ⊢
      rw [run_bind (onFs_run (ataReadSector_rel sharing_onFs.keeping _) s)] at h ⊢
      cases hsb : ((ataReadSector (u32 (start + u32 (off + done) / 512)) : StateM FsState _) s.fs).1 with
      | none =>
        rw [hsb] at h
        cases h
      | some sb =>
        rw [hsb] at h
        dsimp only at h ⊢
        set tc := min (512 - u32 (off + done) % 512) (len - done) with htc
        set chunk := (List.range tc).map fun k => sb.byte (u32 (off + done) % 512 + k) with hchunk
        have hlen : chunk.length = tc := by simp [hchunk]
        have hso : u32 (off + done) % 512 < 512 := Nat.mod_lt _ (by decide)
        let s' : Loader := ⟨((ataReadSector (u32 (start + u32 (off + done) / 512)) : StateM FsState _) s.fs).2,
          overlay s.execBuf done chunk⟩
        have hstore : storeExec done chunk
            ⟨((ataReadSector (u32 (start + u32 (off + done) / 512)) : StateM FsState _) s.fs).2,
          s.execBuf⟩ = ((), s') := rfl
        rw [run_bind hstore] at h ⊢
        rw [bind_apply] at h ⊢
        cases hr : (readLoop storeExec start off len (done + tc) s').1 with
        | none =>
          rw [hr] at h
          cases h
        | some rest =>
          rw [hr] at h
          obtain rfl : chunk ++ rest = bytes := Option.some.inj h
          have hrest := ih (len - (done + tc)) (by omega) (done + tc) hr rfl
          rw [← overlay_append, hlen]
          exact hrest
    · obtain rfl : [] = bytes := Option.some.inj h
      exact (overlay_nil _ _).symm

/-- what `fs_read` returns is what it has stored in exec_buf -/
theorem fsRead_stores (fd : ℤ) (len : ℕ) {s : Loader} {bytes : List UInt8} (h : (fsRead storeExec fd len s).1 = some bytes) :
    (fsRead storeExec fd len s).2.execBuf = overlay s.execBuf 0 bytes := by
  have hget : (getFs : StateM Loader _) s = (s.fs, s) := rfl
  unfold fsRead at h ⊢
  cases hfd : fdSlot fd with
  | none =>
    rw [hfd] at h
    cases h
  | some k =>
    rw [hfd] at h
    dsimp only at h ⊢
    rw [run_bind hget] at h ⊢
    cases hi : (s.fs.fds k).inodeIdx with
    | none =>
      rw [hi] at h
      cases h
    | some i =>
      rw [hi] at h
      dsimp only at h ⊢
      rw [run_bind (onFs_run (inodeRead_rel sharing_onFs.keeping i) s)] at h ⊢
      cases hx : ((inodeRead i : StateM FsState _) s.fs).1 with
      | none =>
        rw [hx] at h
        cases h
      | some x =>
        rw [hx] at h
        dsimp only at h ⊢
        simp only [ite_run] at h ⊢
        split_ifs at h ⊢
        · obtain rfl : [] = bytes := Option.some.inj h
          exact (overlay_nil _ _).symm
        · obtain rfl : [] = bytes := Option.some.inj h
          exact (overlay_nil _ _).symm
        · rw [bind_apply] at h ⊢
          cases hr : (readLoop storeExec x.startBlock.toNat (s.fs.fds k).offset.toNat
              (min len (x.size.toNat - (s.fs.fds k).offset.toNat)) 0
              ⟨((inodeRead i : StateM FsState _) s.fs).2, s.execBuf⟩).1 with
          | none =>
            rw [hr] at h
            cases h
          | some r =>
            rw [hr] at h
            obtain rfl : r = bytes := Option.some.inj h
            exact readLoop_stores _ _ _ _ hr

/-- `fs_read` through an open descriptor -/
theorem fsRead_content {s : FsState} (h : Sound s) {fd : ℤ} {k : Fin 8} {i : ℕ} (hk : fdSlot fd = some k)
    (hi : (s.fds k).inodeIdx = some i) {len : ℕ} (hlen : len < 4294967296) :
    ∃ off, (fsRead (fun _ _ => pure ()) fd len : StateM FsState _) s =
      (some (((s.content i).drop (s.fds k).offset.toNat).take len), s.setFd k ⟨some i, off⟩) ∧
      off.toNat = (s.fds k).offset.toNat + min len ((s.inode i).size.toNat - (s.fds k).offset.toNat) := by
  have hstep := step_read h hk hi (UInt32.ofNat len)
  rw [toNat_ofNat32 hlen] at hstep
  have hoff := h.offset k i hi
  have hsize := (h.placed i (.inr ⟨k, hi⟩)).size
  have hrange := (h.placed i (.inr ⟨k, hi⟩)).range
  refine ⟨_, ?_, toNat_ofNat32 ?_⟩
  · simp only [step, toNat_ofNat32 hlen] at hstep
    obtain ⟨h₁, h₂⟩ := Prod.mk.inj hstep
    exact Prod.ext (Res.data.inj h₁) h₂
  · by_cases h0 : (s.inode i).blockCount.toNat = 0
    · omega
    · have := hrange h0
      omega

/-! ## Which files are programs -/

/-- the part of a file after the header that fits exec_buf -/
def pexeBody (c : List UInt8) : List UInt8 := (c.drop 16).take execBufSize

/-- `load_pexe_blob` takes a file with this content -/
def Accepts (c : List UInt8) : Prop :=
  16 ≤ c.length ∧ (PexeHeader.ofBytes (c.take 16)).magic = pexeMagic ∧ pexeBody c ≠ [] ∧
    ¬ (PexeHeader.ofBytes (c.take 16)).Bad (pexeBody c).length

instance (c : List UInt8) : Decidable (Accepts c) := by
  unfold Accepts
  infer_instance

/-- exec_buf after a program with content `c` has been loaded over `buf` -/
def loaded (c : List UInt8) (buf : ℕ → UInt8) : ℕ → UInt8 := fun i =>
  if i < (pexeBody c).length then (pexeBody c).getD i 0
  else if i < (PexeHeader.ofBytes (c.take 16)).memSize.toNat then 0
  else buf i

/-- zeroing the rest of the program after its body has been stored -/
theorem overlay_fill (buf : ℕ → UInt8) (body : List UInt8) (n : ℕ) :
    (fun j => if body.length ≤ j ∧ j < n then 0 else overlay buf 0 body j) =
      fun j => if j < body.length then body.getD j 0 else if j < n then 0 else buf j := by
  funext j
  simp only [overlay, Nat.zero_le, true_and, Nat.zero_add, Nat.sub_zero]
  by_cases hj : j < body.length
  · rw [if_neg fun hle => absurd hj (not_lt.2 hle.1), if_pos hj, if_pos hj]
  · simp only [if_neg hj, not_lt.1 hj, true_and]

theorem fdSlot_val (k : Fin 8) : fdSlot k.val = some k := by
  unfold fdSlot
  rw [dif_pos ⟨by omega, by omega⟩]
  simp

/-- closing after reads through the descriptor -/
theorem fsClose_loader (fs : FsState) (buf : ℕ → UInt8) (k : Fin 8) (e : Fd) :
    (fsClose k.val : StateM Loader _) ⟨fs.setFd k e, buf⟩ = ((), ⟨fs.setFd k ⟨none, e.offset⟩, buf⟩) := by
  rw [onFs_run (fsClose_rel sharing_onFs k.val), fsClose_run, fdSlot_val]
  simp [FsState.setFd]

section
variable {s : Loader} (h : Sound s.fs) {p : CStr} {fd : Fin 8} {i : ℕ} (hfd : s.fs.freeFd = some fd)
  (hf : s.fs.find p.bytes = some i) (hfile : (s.fs.inode i).type ≠ fsTypeDir)
include h hfd hf hfile

theorem fsOpen_loader : (fsOpen p.arg false : StateM Loader _) s = (some fd, ⟨s.fs.setFd fd ⟨some i, 0⟩, s.execBuf⟩) := by
  have hopen := fsOpen_run h.faults p false
  rw [hfd, hf] at hopen
  dsimp only at hopen
  rw [if_neg hfile] at hopen
  rw [onFs_run (fsOpen_onFs p), hopen]

omit hfd hfile in
/-- the header is what the file starts with, and the body what follows -/
theorem reads_loader (fd : Fin 8) : ∃ o₁ o₂ : UInt32,
    (fsRead (fun _ _ => pure ()) fd.val 16 : StateM Loader _) ⟨s.fs.setFd fd ⟨some i, 0⟩, s.execBuf⟩ =
      (some ((s.fs.content i).take 16), ⟨s.fs.setFd fd ⟨some i, o₁⟩, s.execBuf⟩) ∧
    (16 ≤ (s.fs.content i).length →
      fsRead storeExec fd.val execBufSize ⟨s.fs.setFd fd ⟨some i, o₁⟩, s.execBuf⟩ =
        (some (pexeBody (s.fs.content i)),
          ⟨s.fs.setFd fd ⟨some i, o₂⟩, overlay s.execBuf 0 (pexeBody (s.fs.content i))⟩)) := by
  have hlive : s.fs.held i := .inl (FsState.find_some hf).1
  have hplaced := h.placed i hlive
  have hopen : ∀ o : UInt32, o.toNat ≤ 3975168 → Sound (s.fs.setFd fd ⟨some i, o⟩) := fun o ho =>
    h.setFd (fun j hj => Option.some.inj hj ▸ hlive) fun j _ => ho
  have hidx : ∀ o : UInt32, ((s.fs.setFd fd ⟨some i, o⟩).fds fd).inodeIdx = some i ∧
      ((s.fs.setFd fd ⟨some i, o⟩).fds fd).offset = o := by simp
  have hagain : ∀ o o' : UInt32, (s.fs.setFd fd ⟨some i, o⟩).setFd fd ⟨some i, o'⟩ = s.fs.setFd fd ⟨some i, o'⟩ := by
    simp [FsState.setFd]
  have hcontent : ∀ o : UInt32, (s.fs.setFd fd ⟨some i, o⟩).content i = s.fs.content i := fun _ => rfl
  have hsize : (s.fs.inode i).size.toNat ≤ 3975168 := by
    have h₁ := hplaced.size
    have h₂ := hplaced.range
    by_cases h0 : (s.fs.inode i).blockCount.toNat = 0
    · omega
    · have := h₂ h0
      omega
  obtain ⟨o₁, hread₁, ho₁⟩ :=
    fsRead_content (hopen 0 (by decide)) (fdSlot_val fd) (hidx 0).1 (show 16 < 4294967296 by decide)
  rw [hagain, (hidx 0).2, hcontent] at hread₁
  rw [(hidx 0).2, FsState.setFd_inode] at ho₁
  simp only [UInt32.toNat_zero, List.drop_zero, Nat.zero_add, Nat.sub_zero] at hread₁ ho₁
  obtain ⟨o₂, hread₂, -⟩ := fsRead_content (hopen o₁ (by omega)) (fdSlot_val fd) (hidx o₁).1
    (show execBufSize < 4294967296 by decide)
  rw [hagain, (hidx o₁).2, hcontent] at hread₂
  refine ⟨o₁, o₂, ?_, fun h16 => ?_⟩
  · rw [onFs_run (fsRead_onFs fd.val 16), hread₁]
  · rw [FsState.content_length] at h16
    rw [ho₁, Nat.min_eq_left h16] at hread₂
    obtain ⟨h₁, h₂, -⟩ := fsRead_intoExec fd.val execBufSize ⟨s.fs.setFd fd ⟨some i, o₁⟩, s.execBuf⟩
    rw [hread₂] at h₁ h₂
    have h₃ := fsRead_stores _ _ h₁
    refine Prod.ext h₁ ?_
    dsimp only at h₂ ⊢
    rw [← h₂, pexeBody, ← h₃]

/-- **A program is loaded**: exec_buf holds the file's body and zeros up to mem_size, whatever it held before. -/
theorem loadPexeBlob_accepts (hacc : Accepts (s.fs.content i)) : ∃ b off,
    loadPexeBlob p.arg s =
      (some (b, appLoadAddr + (PexeHeader.ofBytes ((s.fs.content i).take 16)).entryOffset),
        ⟨s.fs.setFd fd ⟨none, off⟩, loaded (s.fs.content i) s.execBuf⟩) ∧
    b.memSize = (PexeHeader.ofBytes ((s.fs.content i).take 16)).memSize.toNat ∧
    b.bytes = loaded (s.fs.content i) s.execBuf := by
  obtain ⟨h16, hmagic, hne, hgood⟩ := hacc
  obtain ⟨o₁, o₂, hread₁, hread₂⟩ := reads_loader h hf fd
  have hlen : ((s.fs.content i).take 16).length = 16 := List.length_take_of_le h16
  have hfill : _ = loaded (s.fs.content i) s.execBuf := overlay_fill s.execBuf (pexeBody (s.fs.content i))
    (PexeHeader.ofBytes ((s.fs.content i).take 16)).memSize.toNat
  refine ⟨(PexeHeader.ofBytes ((s.fs.content i).take 16)).blob hgood (loaded (s.fs.content i) s.execBuf), o₂, ?_,
    PexeHeader.blob_memSize _ _ _, PexeHeader.blob_bytes _ _ _⟩
  unfold loadPexeBlob
  rw [run_bind (fsOpen_loader h hfd hf hfile)]
  dsimp only
  rw [run_bind hread₁]
  dsimp only
  rw [ite_run, if_neg (by simp [hlen, hmagic]), run_bind (hread₂ h16), run_bind (fsClose_loader s.fs _ fd _)]
  dsimp only
  rw [ite_run, if_neg (by simpa using hne), dif_neg hgood, bind_apply]
  simp only [Loader.modifyExec, hfill]

/-- **Any other file is rejected.** -/
theorem loadPexeBlob_rejects (hacc : ¬ Accepts (s.fs.content i)) : (loadPexeBlob p.arg s).1 = none := by
  obtain ⟨o₁, o₂, hread₁, hread₂⟩ := reads_loader h hf fd
  unfold loadPexeBlob
  rw [run_bind (fsOpen_loader h hfd hf hfile)]
  dsimp only
  rw [run_bind hread₁]
  dsimp only
  rw [ite_run]
  split_ifs with hhdr
  · rw [run_bind (fsClose_loader s.fs _ fd _)]
    rfl
  rw [not_or, not_not, not_not, List.length_take] at hhdr
  have h16 : 16 ≤ (s.fs.content i).length := by omega
  rw [run_bind (hread₂ h16), run_bind (fsClose_loader s.fs _ fd _)]
  dsimp only
  rw [ite_run]
  split_ifs with hempty hbad
  · rfl
  · rfl
  have hne : pexeBody (s.fs.content i) ≠ [] := fun he => hempty (by rw [he]; rfl)
  exact absurd ⟨h16, hhdr.2, hne, hbad⟩ hacc

end

/-! ## The descriptor -/

section
variable {s : Loader} {k : Fin 8}

theorem isOpen_loaderRead {fd : ℤ} {len : ℕ}
    (hk : ((fsRead (fun _ _ => pure ()) fd len : StateM Loader _) s).2.fs.isOpen k) :
    s.fs.isOpen k := by
  rw [onFs_run (fsRead_onFs fd len)] at hk
  exact isOpen_fsRead (fun fd _ _ => (opensOnly fd).pure ()) hk

theorem isOpen_loaderStore {fd : ℤ} {len : ℕ} (hk : (fsRead storeExec fd len s).2.fs.isOpen k) : s.fs.isOpen k := by
  rw [(fsRead_intoExec fd len s).2.1] at hk
  exact isOpen_fsRead (fun fd _ _ => (opensOnly fd).pure ()) hk

theorem isOpen_loaderClose {fd : Fin 8} (hk : ((fsClose fd.val : StateM Loader _) s).2.fs.isOpen k) :
    s.fs.isOpen k ∧ k ≠ fd := by
  rw [onFs_run (fsClose_rel sharing_onFs fd.val)] at hk
  have := isOpen_fsClose hk
  rw [fdSlot_val] at this
  exact ⟨this.1, fun he => this.2 (congrArg some he.symm)⟩

/-- **Loading leaves no descriptor open**, whatever the disk holds and whichever I/O fails. -/
theorem isOpen_loadPexeBlob (p : CStr) (hk : (loadPexeBlob p.arg s).2.fs.isOpen k) : s.fs.isOpen k := by
  have hopen := onFs_run (fsOpen_onFs p) s
  unfold loadPexeBlob at hk
  cases hfd : ((fsOpen p.arg false : StateM FsState _) s.fs).1 with
  | none =>
    rw [hfd] at hopen
    rw [run_bind hopen] at hk
    exact (isOpen_fsOpen p hk).resolve_right (by simp [hfd])
  | some fd =>
    -- after the open, `fd` may be open too; every way out closes it
    have hmore : ∀ {j : Fin 8}, ((fsOpen p.arg false : StateM FsState _) s.fs).2.isOpen j → j ≠ fd → s.fs.isOpen j := by
      intro j hj hne
      refine (isOpen_fsOpen p hj).resolve_right fun he => hne ?_
      rw [hfd] at he
      exact (Option.some.inj he).symm
    rw [hfd] at hopen
    rw [run_bind hopen] at hk
    dsimp only at hk
    set t : Loader := ⟨((fsOpen p.arg false : StateM FsState _) s.fs).2, s.execBuf⟩
    rw [bind_apply] at hk
    cases hhdr : ((fsRead (fun _ _ => pure ()) fd.val 16 : StateM Loader _) t).1 with
    | none =>
      rw [hhdr] at hk
      dsimp only at hk
      rw [bind_apply] at hk
      obtain ⟨hk, hne⟩ := isOpen_loaderClose hk
      exact hmore (isOpen_loaderRead hk) hne
    | some bytes =>
      rw [hhdr] at hk
      dsimp only at hk
      rw [ite_run] at hk
      split_ifs at hk with hbad
      · rw [bind_apply] at hk
        obtain ⟨hk, hne⟩ := isOpen_loaderClose hk
        exact hmore (isOpen_loaderRead hk) hne
      rw [bind_apply, bind_apply] at hk
      set u := (fsRead storeExec fd.val execBufSize ((fsRead (fun _ _ => pure ()) fd.val 16 : StateM Loader _) t).2)
      have hend : ((fsClose fd.val : StateM Loader _) u.2).2.fs.isOpen k := by
        cases hbody : u.1 with
        | none =>
          rw [hbody] at hk
          exact hk
        | some body =>
          rw [hbody] at hk
          dsimp only at hk
          rw [ite_run] at hk
          split_ifs at hk
          · exact hk
          · exact hk
          · exact hk
      obtain ⟨hk, hne⟩ := isOpen_loaderClose hend
      exact hmore (isOpen_loaderRead (isOpen_loaderStore hk)) hne

end

end GannetOS.Proc
