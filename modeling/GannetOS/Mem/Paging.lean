/-
The kernel's physical frames and page directories (kernel/mem/pmm.c, kernel/arch/x86/paging.c).

The pmm hands out the 8192 frames of 0x02000000..0x04000000 first-fit from a bitmap. Boot identity-maps the low 64 MB
and the framebuffer through a pool of 32 static page tables. Every task's directory is a shallow copy of the kernel's,
from a pool of 8; a private page replaces the directory's slot by a table of its own, from a pool of 20 with an owner
recorded for each, which starts as a copy of whatever table the slot showed before.

A page directory is named by `DirRef` and a page table by `TableRef`: the arrays are static and page aligned, so their
addresses are distinct, never 0 and never in the frame pool, and an entry is the table it points to with its PAGE_PRESENT
and PAGE_USER bits. PAGE_RW is set on every entry the code writes and read by none of it; it is left out. Physical pages
are counted by their number (address / 4096).

`identity_map_range` is written slot by slot: the writes of one 4 MB slot's pages, which are consecutive entries of one
table, are one update of that table. A boot that runs out of static tables halts, which is `none`.
-/
import GannetOS.Core.Pool

namespace GannetOS.Mem

open GannetOS.Core
open Function (update)

/-! ## Entries and state -/

def pageEntries : ℕ := 1024

/-- a frame of the pmm pool, by its index in the bitmap -/
abbrev Frame := Fin 8192

/-- PMM_POOL_START, as a page number -/
def poolStart : ℕ := 8192

/-- the physical page of a pool frame -/
def pageOf (f : Frame) : ℕ := poolStart + f

/-- the pool frame at a physical page; none outside PMM_POOL_START..PMM_POOL_END -/
def frameAt (page : ℕ) : Option Frame :=
  if h : poolStart ≤ page ∧ page < poolStart + 8192 then some ⟨page - poolStart, by omega⟩ else none

/-- a page directory: page_directory, or a slot of task_directories -/
inductive DirRef where
  | kernel
  | task (k : Fin 8)
deriving DecidableEq, Repr

/-- a page table: one of the static boot tables, or one of the private-table pool -/
inductive TableRef where
  | boot (i : Fin 32)
  | priv (k : Fin 20)
deriving DecidableEq, Repr

structure Pde where
  table : TableRef
  present : Bool
  user : Bool
deriving DecidableEq, Repr

structure Pte where
  page : ℕ
  present : Bool
  user : Bool
deriving DecidableEq, Repr

/-- the all-zero directory entry -/
def Pde.zero : Pde := ⟨.boot 0, false, false⟩

/-- the all-zero table entry -/
def Pte.zero : Pte := ⟨0, false, false⟩

/-- the pool frame a present entry maps -/
def Pte.frame (e : Pte) : Option Frame := if e.present then frameAt e.page else none

structure Paging where
  dir : DirRef → ℕ → Pde
  tab : TableRef → ℕ → Pte
  /-- next_free_table -/
  nextTable : ℕ
  /-- directory_used -/
  dirUsed : Fin 8 → Bool
  /-- task_private_table_owner; none for 0 -/
  owner : Fin 20 → Option DirRef
  /-- the pmm's bitmap -/
  bitmap : Frame → Bool
  /-- the bytes of the pool's frames -/
  ram : Frame → ℕ → UInt8

/-- vaddr >> 22 -/
def pdIndex (v : UInt32) : ℕ := v.toNat / 4194304

/-- (vaddr >> 12) & 0x3FF -/
def ptIndex (v : UInt32) : ℕ := v.toNat / 4096 % 1024

theorem pdIndex_lt (v : UInt32) : pdIndex v < pageEntries := by
  have : v.toNat < 4294967296 := v.toNat_lt
  simp only [pdIndex, pageEntries]
  omega

theorem ptIndex_lt (v : UInt32) : ptIndex v < pageEntries := Nat.mod_lt _ (by decide)

namespace Paging

def setPde (m : Paging) (d : DirRef) (pd : ℕ) (e : Pde) : Paging :=
  { m with dir := update m.dir d (update (m.dir d) pd e) }

def setPte (m : Paging) (t : TableRef) (j : ℕ) (e : Pte) : Paging :=
  { m with tab := update m.tab t (update (m.tab t) j e) }

/-! ## The frame pool -/

/-- pmm_alloc_frame: the first clear bit; the frame is zeroed -/
def pmmAllocFrame (m : Paging) : Option (Frame × Paging) :=
  (firstFree m.bitmap).map fun f =>
    (f, { m with bitmap := update m.bitmap f true, ram := update m.ram f fun _ => 0 })

/-- pmm_free_frame: an address outside the pool is ignored -/
def pmmFreeFrame (m : Paging) (page : ℕ) : Paging :=
  match frameAt page with
  | none => m
  | some f => { m with bitmap := update m.bitmap f false }

/-! ## Boot -/

/-- the pages of one 4 MB slot of `identity_map_range`, with alloc_page_table when the slot has no table yet -/
def identityMapSlot (start stop : ℕ) (m : Paging) (pd : ℕ) : Option Paging :=
  let fill (m : Paging) (t : TableRef) : Paging :=
    { m with tab := update m.tab t fun j =>
        if start ≤ pd * 1024 + j ∧ pd * 1024 + j < stop then ⟨pd * 1024 + j, true, false⟩ else m.tab t j }
  if (m.dir .kernel pd).present then some (fill m (m.dir .kernel pd).table)
  else if h : m.nextTable < 32 then
    let t := TableRef.boot ⟨m.nextTable, h⟩
    let m := { m with nextTable := m.nextTable + 1, tab := update m.tab t fun _ => .zero }
    some (fill (m.setPde .kernel pd ⟨t, true, false⟩) t)
  else none

/-- identity_map_range: the whole pages around [physStart, physStart + length) -/
def identityMapRange (m : Paging) (physStart length : UInt32) : Option Paging :=
  let start := physStart.toNat / 4096
  let stop := (physStart + length + 4095).toNat / 4096
  if start < stop then
    (List.range' (start / 1024) ((stop - 1) / 1024 + 1 - start / 1024)).foldlM (identityMapSlot start stop) m
  else some m

/-- the part of fb_info that paging reads -/
structure Framebuffer where
  physBase : UInt32
  height : UInt32
  pitch : UInt32

/-- the zeroed statics before paging_init -/
def zeroed : Paging :=
  { dir := fun _ _ => .zero, tab := fun _ _ => .zero, nextTable := 0, dirUsed := fun _ => false,
    owner := fun _ => none, bitmap := fun _ => false, ram := fun _ _ => 0 }

/-- paging_init, with pmm_init; none when the static tables run out -/
def pagingInit (fb : Framebuffer) : Option Paging := do
  let m ← zeroed.identityMapRange 0 (64 * 1024 * 1024)
  m.identityMapRange fb.physBase (fb.height * fb.pitch)

/-- paging_mark_kernel_region_user, for one page -/
def markUser (m : Paging) (page : ℕ) : Paging :=
  let e := m.dir .kernel (page / 1024)
  if e.present then
    let m := m.setPde .kernel (page / 1024) { e with user := true }
    let p := m.tab e.table (page % 1024)
    if p.present then m.setPte e.table (page % 1024) { p with user := true } else m
  else m

/-- paging_mark_kernel_region_user, for the pages start..stop - 1 -/
def markKernelRegionUser (m : Paging) (start stop : ℕ) : Paging :=
  (List.range' start (stop - start)).foldl markUser m

/-- paging_unmap_page -/
def unmapPage (m : Paging) (page : ℕ) : Paging :=
  let e := m.dir .kernel (page / 1024)
  if e.present then m.setPte e.table (page % 1024) { m.tab e.table (page % 1024) with present := false } else m

/-! ## Task directories -/

/-- paging_clone_kernel_directory; none for 0 -/
def cloneKernelDirectory (m : Paging) : Option DirRef × Paging :=
  match firstFree m.dirUsed with
  | none => (none, m)
  | some k =>
    (some (.task k), { m with dirUsed := update m.dirUsed k true,
                              dir := update m.dir (.task k) (m.dir .kernel) })

/-- paging_free_directory: only a slot of the pool is given back -/
def freeDirectory (m : Paging) : DirRef → Paging
  | .kernel => m
  | .task k => { m with dirUsed := update m.dirUsed k false }

/-! ## Private pages -/

/-- task_private_table_owner_of: the table is of the private pool and recorded as this directory's -/
def ownedBy (m : Paging) (t : TableRef) (d : DirRef) : Bool :=
  match t with
  | .boot _ => false
  | .priv k => m.owner k = some d

/-- alloc_task_private_table: the first free table, filled with a copy of the table the slot showed so far -/
def allocTaskPrivateTable (m : Paging) (d : DirRef) (existing : Pde) : Option (Fin 20 × Paging) :=
  (firstFree fun k => (m.owner k).isSome).map fun k =>
    (k, { m with owner := update m.owner k (some d),
                 tab := update m.tab (.priv k)
                   (if existing.present then m.tab existing.table else fun _ => .zero) })

/-- paging_map_private_page; none for 0 -/
def mapPrivatePage (m : Paging) (d : DirRef) (v : UInt32) : Option Frame × Paging :=
  let e := m.dir d (pdIndex v)
  let table :=
    if e.present && m.ownedBy e.table d then some (e.table, m)
    else (m.allocTaskPrivateTable d e).map fun (k, m) =>
      (TableRef.priv k, m.setPde d (pdIndex v) ⟨.priv k, true, true⟩)
  match table with
  | none => (none, m)
  | some (t, m) =>
    match m.pmmAllocFrame with
    | none => (none, m)
    | some (f, m) => (some f, m.setPte t (ptIndex v) ⟨pageOf f, true, true⟩)

/-- the frames of the present entries of a table are given back, entry by entry -/
def freeFrames (m : Paging) (t : TableRef) : Paging :=
  (List.range pageEntries).foldl (fun m j => if (m.tab t j).present then m.pmmFreeFrame (m.tab t j).page else m) m

def freeTaskPrivateTable (m : Paging) : TableRef → Paging
  | .boot _ => m
  | .priv k => { m with owner := update m.owner k none }

/-- paging_free_private_pages, for one slot -/
def freePrivateSlot (d : DirRef) (m : Paging) (pd : ℕ) : Paging :=
  let e := m.dir d pd
  if e.present && m.ownedBy e.table d then
    ((m.freeFrames e.table).freeTaskPrivateTable e.table).setPde d pd .zero
  else m

/-- paging_free_private_pages -/
def freePrivatePages (m : Paging) (d : DirRef) : Paging := (List.range pageEntries).foldl (freePrivateSlot d) m

/-- paging_share_pde -/
def sharePde (m : Paging) (dst src : DirRef) (v : UInt32) : Paging :=
  m.setPde dst (pdIndex v) (m.dir src (pdIndex v))

/-! ## What mapping a private page does -/

/-- directory `d` owns the table its slot `pd` shows -/
def OwnsSlot (m : Paging) (d : DirRef) (pd : ℕ) : Prop :=
  (m.dir d pd).present = true ∧ ∃ k, (m.dir d pd).table = .priv k ∧ m.owner k = some d

/-- slot `pd` of `d` made private with the free table `k`: a copy of what the slot showed -/
def privatise (m : Paging) (d : DirRef) (pd : ℕ) (k : Fin 20) : Paging :=
  { m with owner := update m.owner k (some d),
           tab := update m.tab (.priv k)
             (if (m.dir d pd).present then m.tab (m.dir d pd).table else fun _ => .zero),
           dir := update m.dir d (update (m.dir d) pd ⟨.priv k, true, true⟩) }

/-- the free frame `f` allocated, zeroed and mapped at entry `j` of private table `k` -/
def place (m : Paging) (k : Fin 20) (j : ℕ) (f : Frame) : Paging :=
  { m with bitmap := update m.bitmap f true,
           ram := update m.ram f fun _ => 0,
           tab := update m.tab (.priv k) (update (m.tab (.priv k)) j ⟨pageOf f, true, true⟩) }

/-- every way `paging_map_private_page` can go -/
inductive Maps (m : Paging) (d : DirRef) (v : UInt32) : Option Frame → Paging → Prop
  | noTable (hown : ¬ m.OwnsSlot d (pdIndex v)) (hall : ∀ k, m.owner k ≠ none) : Maps m d v none m
  | noFrame (hown : m.OwnsSlot d (pdIndex v)) (hall : ∀ f, m.bitmap f = true) : Maps m d v none m
  | tableOnly (k : Fin 20) (hown : ¬ m.OwnsSlot d (pdIndex v)) (hk : m.owner k = none)
      (hall : ∀ f, m.bitmap f = true) : Maps m d v none (m.privatise d (pdIndex v) k)
  | reused (k : Fin 20) (f : Frame) (hpres : (m.dir d (pdIndex v)).present = true)
      (htab : (m.dir d (pdIndex v)).table = .priv k) (hk : m.owner k = some d) (hf : m.bitmap f = false) :
      Maps m d v (some f) (m.place k (ptIndex v) f)
  | fresh (k : Fin 20) (f : Frame) (hown : ¬ m.OwnsSlot d (pdIndex v)) (hk : m.owner k = none)
      (hf : m.bitmap f = false) : Maps m d v (some f) ((m.privatise d (pdIndex v) k).place k (ptIndex v) f)

theorem ownsSlot_iff {m : Paging} {d : DirRef} {pd : ℕ} :
    m.OwnsSlot d pd ↔ ((m.dir d pd).present && m.ownedBy (m.dir d pd).table d) = true := by
  simp only [OwnsSlot, ownedBy, Bool.and_eq_true]
  cases (m.dir d pd).table <;> simp

instance (m : Paging) (d : DirRef) (pd : ℕ) : Decidable (m.OwnsSlot d pd) := decidable_of_iff _ ownsSlot_iff.symm

theorem maps_mapPrivatePage (m : Paging) (d : DirRef) (v : UInt32) :
    Maps m d v (m.mapPrivatePage d v).1 (m.mapPrivatePage d v).2 := by
  by_cases hown : m.OwnsSlot d (pdIndex v)
  · obtain ⟨hpres, k, htab, hk⟩ := hown
    cases hf : firstFree m.bitmap with
    | none =>
      have : m.mapPrivatePage d v = (none, m) := by
        simp [mapPrivatePage, ownedBy, hpres, htab, hk, pmmAllocFrame, hf]
      rw [this]
      exact .noFrame ⟨hpres, k, htab, hk⟩ (firstFree_eq_none.1 hf)
    | some f =>
      have : m.mapPrivatePage d v = (some f, m.place k (ptIndex v) f) := by
        simp [mapPrivatePage, ownedBy, hpres, htab, hk, pmmAllocFrame, hf, place, setPte]
      rw [this]
      exact .reused k f hpres htab hk (firstFree_free hf)
  · have hno : ((m.dir d (pdIndex v)).present && m.ownedBy (m.dir d (pdIndex v)).table d) = false := by
      simpa using mt ownsSlot_iff.2 hown
    cases ht : firstFree fun k => (m.owner k).isSome with
    | none =>
      have : m.mapPrivatePage d v = (none, m) := by
        simp only [mapPrivatePage, hno, Bool.false_eq_true, if_false, allocTaskPrivateTable, ht, Option.map_none]
      rw [this]
      exact .noTable hown fun k hk => by simpa [hk] using firstFree_eq_none.1 ht k
    | some k =>
      have hk : m.owner k = none := by simpa using firstFree_free ht
      cases hf : firstFree m.bitmap with
      | none =>
        have : m.mapPrivatePage d v = (none, m.privatise d (pdIndex v) k) := by
          simp only [mapPrivatePage, hno, Bool.false_eq_true, if_false, allocTaskPrivateTable, ht, Option.map_some,
            setPde, pmmAllocFrame, hf, Option.map_none]
          rfl
        rw [this]
        exact .tableOnly k hown hk (firstFree_eq_none.1 hf)
      | some f =>
        have : m.mapPrivatePage d v = (some f, (m.privatise d (pdIndex v) k).place k (ptIndex v) f) := by
          simp only [mapPrivatePage, hno, Bool.false_eq_true, if_false, allocTaskPrivateTable, ht, Option.map_some,
            setPde, pmmAllocFrame, hf, setPte]
          rfl
        rw [this]
        exact .fresh k f hown hk (firstFree_free hf)

end Paging

end GannetOS.Mem
