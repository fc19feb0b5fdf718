/-
The bitmap loops and the sector loops of `filesys/fs.c` on a state in which no I/O fails.

`putBytes` is the disk after `fs_write`'s transfer loop, `copyRun` the disk after the copy of a growing file, and
`FsState.bytes` what `fs_read`'s loop delivers. A file's byte `k` lies in sector `start + k / 512` at offset `k % 512`;
`dataByte_putBytes` and `putBytes_out` say what a write does to the bytes of the file and to every other sector.
-/
import GannetOS.Filesys.Lookup

namespace GannetOS.Filesys

open GannetOS.Core

theorem u32_of_lt {n : ℕ} (h : n < 4294967296) : u32 n = n := Nat.mod_eq_of_lt h

theorem sub32_of_le {a b : ℕ} (h : b ≤ a) (ha : a < 4294967296) : sub32 a b = a - b := by
  unfold sub32 u32
  omega

/-- the bits an inode's sectors have in the allocation bitmap -/
def Inode.extent (x : Inode) : Extent := ⟨x.startBlock.toNat - 428, x.blockCount.toNat⟩

theorem Inode.mem_extent {x : Inode} {b : ℕ} :
    b ∈ x.extent ↔ x.startBlock.toNat - 428 ≤ b ∧ b < x.startBlock.toNat - 428 + x.blockCount.toNat := Iff.rfl

theorem Inode.extent_eq (x : Inode) : x.extent = ⟨x.startBlock.toNat - 428, x.blockCount.toNat⟩ := rfl

theorem Inode.extent_of_zero {x : Inode} (h : x.blockCount = 0) : x.extent = ⟨x.startBlock.toNat - 428, 0⟩ := by
  unfold extent
  rw [h]
  rfl

attribute [irreducible] Inode.extent

/-! ## Bitmap loops -/

theorem mark_succ (bm : ℕ → Bool) (rel n : ℕ) (v : Bool) :
    Function.update (mark bm ⟨rel, n⟩ v) (rel + n) v = mark bm ⟨rel, n + 1⟩ v := by
  funext b
  simp only [mark, Function.update_apply, Extent.mem_def]
  by_cases hb : b = rel + n
  · simp [hb]
  · rw [if_neg hb]
    congr 1
    exact propext ⟨fun h => by omega, fun h => by omega⟩

theorem mark_zero (bm : ℕ → Bool) (rel : ℕ) (v : Bool) : mark bm ⟨rel, 0⟩ v = bm := by
  funext b
  simp [mark]

theorem bmSetRun_run (s : FsState) (rel n : ℕ) (hn : rel + n ≤ 4294967296) :
    (bmSetRun rel n : StateM FsState _) s = ((), { s with bitmap := mark s.bitmap ⟨rel, n⟩ true }) := by
  induction n with
  | zero => rw [mark_zero]; rfl
  | succ n ih =>
    rw [bmSetRun, run_bind (ih (by omega)), u32_of_lt (by omega), ← mark_succ]
    rfl

theorem bmClrRun_run (s : FsState) (rel n : ℕ) (hn : rel + n ≤ 4294967296) :
    (bmClrRun rel n : StateM FsState _) s = ((), { s with bitmap := mark s.bitmap ⟨rel, n⟩ false }) := by
  induction n with
  | zero => rw [mark_zero]; rfl
  | succ n ih =>
    rw [bmClrRun, run_bind (ih (by omega)), u32_of_lt (by omega), ← mark_succ]
    rfl

theorem bmAlloc_run (s : FsState) (count : ℕ) (hd : s.dataSectorCount ≤ 8192) :
    (bmAlloc count : StateM FsState _) s = match firstFit s.bitmap s.dataSectorCount count with
      | none => (none, s)
      | some i => (some i, { s with bitmap := mark s.bitmap ⟨i, count⟩ true }) := by
  have hget : (getFs : StateM FsState _) s = (s, s) := rfl
  rw [bmAlloc, run_bind hget]
  cases hf : firstFit s.bitmap s.dataSectorCount count with
  | none => rfl
  | some i =>
    have hi := (firstFit_sound hf).1
    simp only
    rw [run_bind (bmSetRun_run s i count (by omega))]
    rfl

/-- the bits of an inode with a valid extent are cleared by the release loops -/
theorem bmClrRun_extent (s : FsState) (x : Inode) (h : 428 ≤ x.startBlock.toNat)
    (hb : x.startBlock.toNat + x.blockCount.toNat ≤ 4294967296) :
    (bmClrRun (sub32 x.startBlock.toNat fsDataStart) x.blockCount.toNat : StateM FsState _) s =
      ((), { s with bitmap := mark s.bitmap x.extent false }) := by
  have hclr := bmClrRun_run s (x.startBlock.toNat - 428) x.blockCount.toNat (by omega)
  rw [← Inode.extent_eq] at hclr
  rw [show fsDataStart = 428 from rfl, sub32_of_le h x.startBlock.toNat_lt]
  exact hclr

/-! ## Reading -/

/-- byte `k` of the data that starts at sector `start` -/
def dataByte (disk : ℕ → Sector) (start k : ℕ) : UInt8 := (disk (start + k / 512)).byte (k % 512)

/-- `n` bytes from offset `off` of the data that starts at sector `start` -/
def dataBytes (disk : ℕ → Sector) (start off n : ℕ) : List UInt8 := (List.range n).map fun k => dataByte disk start (off + k)

@[simp] theorem dataBytes_length (disk : ℕ → Sector) (start off n : ℕ) : (dataBytes disk start off n).length = n := by
  simp [dataBytes]

theorem dataBytes_add (disk : ℕ → Sector) (start off a b : ℕ) :
    dataBytes disk start off (a + b) = dataBytes disk start off a ++ dataBytes disk start (off + a) b := by
  simp only [dataBytes, List.range_add, List.map_append, List.map_map]
  congr 1
  apply List.map_congr_left
  intro k _
  simp [Nat.add_assoc]

/-- the chunk of one sector -/
theorem dataBytes_sector (disk : ℕ → Sector) (start pos n : ℕ) (hn : n ≤ 512 - pos % 512) :
    (List.range n).map (fun k => (disk (start + pos / 512)).byte (pos % 512 + k)) = dataBytes disk start pos n := by
  apply List.map_congr_left
  intro k hk
  rw [List.mem_range] at hk
  rw [dataByte, show (pos + k) / 512 = pos / 512 by omega, show (pos + k) % 512 = pos % 512 + k by omega]

theorem readLoop_run {s : FsState} (h : s.faults = []) (start off len : ℕ) (hlen : off + len < 4294967296)
    (hstart : start < 8192) (done : ℕ) (hd : done ≤ len) :
    (readLoop (fun _ _ => pure ()) start off len done : StateM FsState _) s =
      (some (dataBytes s.disk start (off + done) (len - done)), s) := by
  -- the bytes still to come decide how many rounds are left
  induction hk : len - done using Nat.strong_induction_on generalizing done with
  | _ k ih =>
    rw [readLoop]
    by_cases hlt : done < len
    · have hpos : u32 (off + done) = off + done := u32_of_lt (by omega)
      have hlba : u32 (start + (off + done) / 512) = start + (off + done) / 512 := u32_of_lt (by omega)
      set tc := min (512 - (off + done) % 512) (len - done) with htc
      have htc0 : 0 < tc := by omega
      have hrest := ih (len - (done + tc)) (by omega) (done + tc) (by omega) rfl
      rw [if_pos hlt]
      simp only [hpos, hlba, ← htc]
      rw [run_bind (ataReadSector_run h _)]
      simp only [pure_bind]
      rw [run_bind hrest, dataBytes_sector _ _ _ _ (by omega)]
      rw [show k = tc + (len - (done + tc)) by omega, dataBytes_add, Nat.add_assoc]
      rfl
    · rw [if_neg hlt, show k = 0 by omega]
      rfl

/-! ## Writing -/

/-- the disk with `n` bytes `src` stored at offset `off` of the data that starts at sector `start` -/
def putBytes (disk : ℕ → Sector) (start off n : ℕ) (src : ℕ → UInt8) : ℕ → Sector := fun lba i =>
  if start ≤ lba ∧ off ≤ (lba - start) * 512 + i ∧ (lba - start) * 512 + i < off + n then
    src ((lba - start) * 512 + i - off)
  else disk lba i

theorem putBytes_zero (disk : ℕ → Sector) (start off : ℕ) (src : ℕ → UInt8) :
    putBytes disk start off 0 src = disk := by
  funext lba i
  exact if_neg (by omega)

/-- one sector write stores one chunk -/
theorem putBytes_sector (disk : ℕ → Sector) (start pos n : ℕ) (src : ℕ → UInt8) (hn : n ≤ 512 - pos % 512) :
    Function.update disk (start + pos / 512) ((disk (start + pos / 512)).patch (pos % 512) n src) =
      putBytes disk start pos n src := by
  funext lba i
  have hi := i.isLt
  unfold putBytes
  by_cases hlba : lba = start + pos / 512
  · subst hlba
    simp only [Function.update_self, Sector.patch]
    by_cases hin : pos % 512 ≤ i.val ∧ i.val < pos % 512 + n
    · rw [if_pos hin, if_pos (by omega)]
      congr 1
      omega
    · rw [if_neg hin, if_neg (by omega)]
  · rw [Function.update_of_ne hlba, if_neg (by omega)]

theorem putBytes_append (disk : ℕ → Sector) (start off a b : ℕ) (src : ℕ → UInt8) :
    putBytes (putBytes disk start off a src) start (off + a) b (fun k => src (a + k)) =
      putBytes disk start off (a + b) src := by
  funext lba i
  unfold putBytes
  by_cases h1 : start ≤ lba ∧ off + a ≤ (lba - start) * 512 + i ∧ (lba - start) * 512 + i < off + a + b
  · rw [if_pos h1, if_pos (by omega)]
    exact congrArg src (by omega)
  · rw [if_neg h1]
    by_cases h2 : start ≤ lba ∧ off ≤ (lba - start) * 512 + i ∧ (lba - start) * 512 + i < off + a
    · rw [if_pos h2, if_pos (by omega)]
    · rw [if_neg h2, if_neg (by omega)]

/-- a whole-sector chunk does not depend on what the buffer held -/
theorem patch_full (sb sb' : Sector) (src : ℕ → UInt8) : sb.patch 0 512 src = sb'.patch 0 512 src := by
  funext i
  have hi := i.isLt
  simp only [Sector.patch]
  rw [if_pos (by omega), if_pos (by omega)]

/-- whether or not the sector is read first, the chunk ends up in the sector as it was -/
theorem sectorBase_run {s : FsState} (h : s.faults = []) (lba so tc : ℕ) (sb : Sector) :
    ∃ base : Sector, (sectorBase lba so tc sb : StateM FsState _) s = (some base, s) ∧
      ∀ src, base.patch so tc src = (s.disk lba).patch so tc src := by
  unfold sectorBase
  by_cases hpart : so ≠ 0 ∨ tc ≠ 512
  · rw [if_pos hpart]
    exact ⟨_, ataReadSector_run h _, fun _ => rfl⟩
  · obtain ⟨rfl, rfl⟩ : so = 0 ∧ tc = 512 := by simpa only [not_or, not_not] using hpart
    exact ⟨sb, rfl, fun src => patch_full _ _ _⟩

theorem writeLoop_run {s : FsState} (h : s.faults = []) {start off : ℕ} (data : List UInt8)
    (hlen : off + data.length < 4294967296) (hstart : start < 8192) (done : ℕ) (hd : done ≤ data.length) (sb : Sector) :
    (writeLoop (fun o n => pure ((data.drop o).take n)) start off data.length done sb : StateM FsState _) s =
      (true, { s with
        disk := putBytes s.disk start (off + done) (data.length - done) (fun k => data.getD (done + k) 0) }) := by
  induction hk : data.length - done using Nat.strong_induction_on generalizing done sb s with
  | _ k ih =>
    rw [writeLoop]
    by_cases hlt : done < data.length
    · have hpos : u32 (off + done) = off + done := u32_of_lt (by omega)
      have hlba : u32 (start + (off + done) / 512) = start + (off + done) / 512 := u32_of_lt (by omega)
      set tc := min (512 - (off + done) % 512) (data.length - done) with htc
      have htc0 : 0 < tc := by omega
      obtain ⟨base, hread, hbase⟩ := sectorBase_run h (start + (off + done) / 512) ((off + done) % 512) tc sb
      have hbytes : ∀ j < tc, ((data.drop done).take tc).getD j 0 = data.getD (done + j) 0 := by
        intro j hj
        simp [List.getD_eq_getElem?_getD, hj]
      have hchunk : base.patch ((off + done) % 512) tc (fun j => ((data.drop done).take tc).getD j 0) =
          (s.disk (start + (off + done) / 512)).patch ((off + done) % 512) tc fun j => data.getD (done + j) 0 := by
        rw [hbase]
        funext i
        simp only [Sector.patch]
        by_cases hin : (off + done) % 512 ≤ i.val ∧ i.val < (off + done) % 512 + tc
        · rw [if_pos hin, if_pos hin, hbytes _ (by omega)]
        · rw [if_neg hin, if_neg hin]
      rw [if_pos hlt]
      simp only [hpos, hlba, ← htc]
      rw [run_bind hread]
      simp only [pure_bind]
      rw [run_bind (ataWriteSector_run h _ _)]
      simp only [Bool.not_true, Bool.false_eq_true, if_false]
      rw [hchunk, putBytes_sector _ _ _ _ _ (by omega),
        ih (data.length - (done + tc)) (by omega) (by simpa using h) (done + tc) (by omega) _ rfl]
      have happ := putBytes_append s.disk start (off + done) tc (data.length - (done + tc))
        (fun k => data.getD (done + k) 0)
      simp only [← Nat.add_assoc] at happ
      simp only
      rw [← Nat.add_assoc off, happ, show tc + (data.length - (done + tc)) = k by omega]
    · rw [if_neg hlt, show k = 0 by omega, putBytes_zero]
      rfl

/-- the written bytes are read back, and the other bytes of the file are as before -/
theorem dataByte_putBytes (disk : ℕ → Sector) (start off n : ℕ) (src : ℕ → UInt8) (k : ℕ) :
    dataByte (putBytes disk start off n src) start k =
      if off ≤ k ∧ k < off + n then src (k - off) else dataByte disk start k := by
  have hk : k % 512 < 512 := Nat.mod_lt _ (by decide)
  have hmul : (start + k / 512 - start) * 512 + k % 512 = k := by omega
  simp only [dataByte, Sector.byte, dif_pos hk, putBytes, hmul]
  by_cases h : off ≤ k ∧ k < off + n
  · rw [if_pos h, if_pos ⟨by omega, h⟩]
  · rw [if_neg h, if_neg fun hc => h hc.2]

/-- a write leaves every sector outside the ones it covers alone -/
theorem putBytes_out (disk : ℕ → Sector) {start off n lba : ℕ} (src : ℕ → UInt8)
    (h : lba < start ∨ start * 512 + off + n ≤ lba * 512) : putBytes disk start off n src lba = disk lba := by
  funext i
  unfold putBytes
  exact if_neg (by omega)

/-! ## Copying sectors -/

/-- the disk after copying `n` sectors from `src` to `dst` -/
def copyRun (disk : ℕ → Sector) (src dst n : ℕ) : ℕ → Sector := fun lba =>
  if dst ≤ lba ∧ lba < dst + n then disk (src + (lba - dst)) else disk lba

theorem copyRun_zero (disk : ℕ → Sector) (src dst : ℕ) : copyRun disk src dst 0 = disk := by
  funext lba
  exact if_neg (by omega)

theorem copySectors_run {s : FsState} (h : s.faults = []) {src dst total : ℕ} (hs : src + total ≤ 8192)
    (hd : dst + total ≤ 8192) (hdis : ∀ i < total, ∀ j < total, src + i ≠ dst + j) (n k : ℕ) (hn : k + n = total) :
    (copySectors src dst n k : StateM FsState _) s =
      (true, { s with disk := copyRun s.disk (src + k) (dst + k) n }) := by
  induction n generalizing k s with
  | zero => rw [copyRun_zero]; rfl
  | succ n ih =>
    rw [copySectors, u32_of_lt (by omega), run_bind (ataReadSector_run h _)]
    simp only
    rw [u32_of_lt (by omega), run_bind (ataWriteSector_run h _ _)]
    simp only [Bool.not_true, Bool.false_eq_true, if_false]
    rw [ih (by simpa using h) (k + 1) (by omega)]
    congr 2
    funext lba
    simp only [copyRun]
    by_cases hlba : lba = dst + k
    · subst hlba
      rw [if_neg (by omega), if_pos (by omega), Function.update_self]
      congr 1
      omega
    · by_cases hin : dst + (k + 1) ≤ lba ∧ lba < dst + (k + 1) + n
      · have hne : src + (k + 1) + (lba - (dst + (k + 1))) ≠ dst + k := by
          have := hdis (k + 1 + (lba - (dst + (k + 1)))) (by omega) k (by omega)
          omega
        rw [if_pos hin, if_pos (by omega), Function.update_of_ne hne]
        congr 1
        omega
      · rw [if_neg hin, if_neg (by omega), Function.update_of_ne hlba]

theorem copyRun_out (disk : ℕ → Sector) {src dst n lba : ℕ} (h : lba < dst ∨ dst + n ≤ lba) :
    copyRun disk src dst n lba = disk lba :=
  if_neg (by omega)

/-- the copy holds the bytes of the original -/
theorem dataByte_copyRun (disk : ℕ → Sector) (src dst n k : ℕ) (hk : k < 512 * n) :
    dataByte (copyRun disk src dst n) dst k = dataByte disk src k := by
  simp only [dataByte, copyRun]
  rw [if_pos (by omega), Nat.add_sub_cancel_left]

end GannetOS.Filesys
