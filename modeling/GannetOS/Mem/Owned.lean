/-
What `paging_free_private_pages` gives back, over every sequence of paging calls.

A private table starts as a copy of the table its slot showed before, and `paging_free_private_pages(d)` frees the frame
of every present entry of every table recorded as d's. So it frees what d obtained exactly as long as no entry that was
copied, rather than placed by a `paging_map_private_page(d, _)`, shows a frame of the pool, and no entry placed for d is
lost.

Model: the paging calls as operations on `Paging`, in any order, on the kernel directory or a cloned one, each free to
fail on an empty pool.

Results:
- `freePrivatePages_freed`: what the loop of `paging_free_private_pages` does, from any state;
- `Owned.map`, `Owned.share`, `Owned.clone`, `Owned.freePages`, `Owned.freeDirectory`: each call keeps the ownership
  invariant `Owned` (the pool frames shown by owned tables are marked, each is shown by one entry, and each owned table
  is shown by its owner);
- `free_exact`: after any run of `Careful` calls, `paging_free_private_pages(d)` clears exactly the frames d obtained,
  returns exactly d's tables, and leaves every frame of another directory marked.
Witness of what a careless call does:
- `free_takes_kernel_frame`: the kernel maps its page at 0x40000000; a clone maps 0x40001000, in the same slot, and so
  copies the kernel's entry; freeing the clone's pages clears the kernel's frame.
-/
import GannetOS.Core.Loop
import GannetOS.Core.Run
import GannetOS.Mem.Paging

namespace GannetOS.Mem.Paging

open GannetOS.Core List
open Function (update update_of_ne update_self)

variable {m m' : Paging} {d d' : DirRef} {v : UInt32}

/-! ## The freeing loop -/

/-- one entry's frame is cleared -/
theorem freeEntry_eq (m : Paging) (e : Pte) :
    (if e.present then m.pmmFreeFrame e.page else m) =
      { m with bitmap := fun f => m.bitmap f && !decide (e.frame = some f) } := by
  split_ifs with hp
  · have hfr : e.frame = frameAt e.page := by simp [Pte.frame, hp]
    rw [hfr, pmmFreeFrame]
    cases frameAt e.page with
    | none => simp
    | some g =>
      dsimp only
      congr 1
      funext f
      by_cases hg : f = g
      · simp [hg]
      · simp [update_of_ne hg, Ne.symm hg]
  · simp [Pte.frame, hp]

/-- the frames of the first `n` entries of a table are cleared -/
theorem foldl_freeFrames (m : Paging) (t : TableRef) (n : ℕ) :
    (List.range n).foldl (fun m j => if (m.tab t j).present then m.pmmFreeFrame (m.tab t j).page else m) m =
      { m with bitmap := fun f => m.bitmap f && !decide (∃ j < n, (m.tab t j).frame = some f) } := by
  induction n with
  | zero => simp
  | succ n ih =>
    rw [range_succ, foldl_append, ih, foldl_cons, foldl_nil, freeEntry_eq]
    congr 1
    funext f
    simp only [Nat.exists_lt_succ_right, Bool.decide_or, Bool.not_or, Bool.and_assoc]

theorem freeFrames_eq (m : Paging) (t : TableRef) :
    m.freeFrames t =
      { m with bitmap := fun f => m.bitmap f && !decide (∃ j < pageEntries, (m.tab t j).frame = some f) } :=
  foldl_freeFrames m t pageEntries

/-- table `k` is owned by `d` and shown by one of its first `n` slots -/
def Freed (m : Paging) (d : DirRef) (n : ℕ) (k : Fin 20) : Prop :=
  m.owner k = some d ∧ ∃ pd < n, (m.dir d pd).present = true ∧ (m.dir d pd).table = .priv k

/-- `m'` is `m` after the first `n` slots of `d` have been freed -/
structure FreedUpTo (m : Paging) (d : DirRef) (n : ℕ) (m' : Paging) : Prop where
  tab : m'.tab = m.tab
  ram : m'.ram = m.ram
  dirUsed : m'.dirUsed = m.dirUsed
  nextTable : m'.nextTable = m.nextTable
  other : ∀ d' ≠ d, m'.dir d' = m.dir d'
  later : ∀ pd, n ≤ pd → m'.dir d pd = m.dir d pd
  slots : ∀ pd, m'.dir d pd = m.dir d pd ∨ m.OwnsSlot d pd ∧ m'.dir d pd = .zero
  kept : ∀ k, ¬ m.Freed d n k → m'.owner k = m.owner k
  given : ∀ k, m.Freed d n k → m'.owner k = none
  bitmap : ∀ f, m'.bitmap f = true ↔
    m.bitmap f = true ∧ ∀ k, m.Freed d n k → ∀ j < pageEntries, (m.tab (.priv k) j).frame ≠ some f

variable {k : Fin 20} {j i : ℕ} {r : Option Frame} {f : Frame} {tr : List (PagingOp × PagingRes)}

theorem freed_succ {n : ℕ} : m.Freed d (n + 1) k ↔
    m.Freed d n k ∨ m.owner k = some d ∧ (m.dir d n).present = true ∧ (m.dir d n).table = .priv k := by
  simp only [Freed, Nat.lt_succ_iff_lt_or_eq, or_and_right, exists_or, exists_eq_left, and_or_left]

theorem freePrivateSlot_freed {n : ℕ} (h : FreedUpTo m d n m') :
    FreedUpTo m d (n + 1) (freePrivateSlot d m' n) := by
  by_cases hown : m'.OwnsSlot d n
  · -- the slot shows a table that is still recorded as d's: its frames, the table and the slot go
    obtain ⟨hpres, k, htab, hk⟩ := hown
    have hslot := h.later n le_rfl
    rw [hslot] at hpres htab
    have hnot : ¬ m.Freed d n k := fun hf => by simp [h.given k hf] at hk
    have hmk : m.owner k = some d := by rw [← h.kept k hnot, hk]
    have hstep : freePrivateSlot d m' n =
        (((m'.freeFrames (.priv k)).freeTaskPrivateTable (.priv k)).setPde d n .zero) := by
      simp [freePrivateSlot, hslot, hpres, htab, ownedBy, hk]
    have hfreed : ∀ l, m.Freed d (n + 1) l ↔ m.Freed d n l ∨ l = k := by
      intro l
      rw [freed_succ, htab]
      constructor
      · rintro (hl | ⟨-, -, he⟩)
        · exact .inl hl
        · exact .inr (TableRef.priv.inj he).symm
      · rintro (hl | rfl)
        · exact .inl hl
        · exact .inr ⟨hmk, hpres, rfl⟩
    rw [hstep, freeFrames_eq]
    refine ⟨h.tab, h.ram, h.dirUsed, h.nextTable, ?_, ?_, ?_, ?_, ?_, ?_⟩
    · intro d' hd'
      simp only [freeTaskPrivateTable, setPde, update_of_ne hd']
      exact h.other d' hd'
    · intro pd hpd
      have hne : pd ≠ n := by omega
      simp only [freeTaskPrivateTable, setPde, update_self, update_of_ne hne]
      exact h.later pd (by omega)
    · intro pd
      by_cases hne : pd = n
      · subst hne
        refine .inr ⟨⟨hpres, k, htab, hmk⟩, ?_⟩
        simp [freeTaskPrivateTable, setPde]
      · simp only [freeTaskPrivateTable, setPde, update_self, update_of_ne hne]
        exact h.slots pd
    · intro l hl
      have hlk : l ≠ k := fun he => hl ((hfreed l).2 (.inr he))
      simp only [freeTaskPrivateTable, setPde, update_of_ne hlk]
      exact h.kept l fun hf => hl ((hfreed l).2 (.inl hf))
    · intro l hl
      by_cases hlk : l = k
      · simp [freeTaskPrivateTable, setPde, hlk]
      · simp only [freeTaskPrivateTable, setPde, update_of_ne hlk]
        exact h.given l (((hfreed l).1 hl).resolve_right hlk)
    · intro f
      simp only [freeTaskPrivateTable, setPde, Bool.and_eq_true, Bool.not_eq_true', decide_eq_false_iff_not, h.bitmap,
        h.tab, and_assoc]
      refine and_congr_right fun _ => ?_
      constructor
      · rintro ⟨hall, hk'⟩ l hl j hj he
        rcases (hfreed l).1 hl with hl | rfl
        · exact hall l hl j hj he
        · exact hk' ⟨j, hj, he⟩
      · intro hall
        refine ⟨fun l hl => hall l ((hfreed l).2 (.inl hl)), ?_⟩
        rintro ⟨j, hj, he⟩
        exact hall k ((hfreed k).2 (.inr rfl)) j hj he
  · -- nothing of d's is shown here, or it went with an earlier slot
    have hstep : freePrivateSlot d m' n = m' := by
      have := mt ownsSlot_iff.2 hown
      simp only [freePrivateSlot]
      rw [if_neg this]
    have hfreed : ∀ k, m.Freed d (n + 1) k ↔ m.Freed d n k := by
      intro k
      rw [freed_succ]
      refine or_iff_left_of_imp ?_
      rintro ⟨hk, hpres, htab⟩
      by_contra hnot
      have hslot := h.later n le_rfl
      exact hown ⟨by rw [hslot, hpres], k, by rw [hslot, htab], by rw [h.kept k hnot, hk]⟩
    rw [hstep]
    exact ⟨h.tab, h.ram, h.dirUsed, h.nextTable, h.other, fun pd hpd => h.later pd (by omega), h.slots,
      fun k hk => h.kept k (mt (hfreed k).2 hk), fun k hk => h.given k ((hfreed k).1 hk),
      fun f => by simp only [h.bitmap, hfreed]⟩

/-- **What `paging_free_private_pages` does, from any state.** -/
theorem freePrivatePages_freed (m : Paging) (d : DirRef) : FreedUpTo m d pageEntries (m.freePrivatePages d) := by
  refine foldl_range (I := fun n m' => FreedUpTo m d n m') ?_ fun _ _ _ h => freePrivateSlot_freed h
  refine ⟨rfl, rfl, rfl, rfl, fun _ _ => rfl, fun _ _ => rfl, fun _ => .inl rfl, fun _ _ => rfl, ?_, ?_⟩
  · rintro k ⟨-, pd, hpd, -⟩
    omega
  · intro f
    simp [Freed]

/-! ## Ownership -/

/-- entry `j` of the owned private table `k` shows pool frame `f` -/
def Entry (m : Paging) (k : Fin 20) (j : ℕ) (f : Frame) : Prop :=
  m.owner k ≠ none ∧ j < pageEntries ∧ (m.tab (.priv k) j).frame = some f

/-- directory `d` holds frame `f`: an entry of a table of its own shows it -/
def Holds (m : Paging) (d : DirRef) (f : Frame) : Prop := ∃ k j, m.owner k = some d ∧ m.Entry k j f

structure Owned (m : Paging) : Prop where
  marked : ∀ k j f, m.Entry k j f → m.bitmap f = true
  unique : ∀ k j k' j' f, m.Entry k j f → m.Entry k' j' f → k = k' ∧ j = j'
  shown : ∀ k d, m.owner k = some d →
    ∃ pd < pageEntries, (m.dir d pd).present = true ∧ (m.dir d pd).table = .priv k

/-- a directory that may be mapped in: the kernel's or a cloned one -/
def InUse (m : Paging) : DirRef → Prop
  | .kernel => True
  | .task k => m.dirUsed k = true

/-- mapping `v` in `d` copies no pool frame that it does not overwrite, and overwrites none that `d` placed: either the
slot is `d`'s own and entry `v` shows no pool frame yet, or every pool frame that the table to be copied shows is at
entry `v`, and a frame is free to replace it -/
def Mappable (m : Paging) (d : DirRef) (v : UInt32) : Prop :=
  (m.OwnsSlot d (pdIndex v) → (m.tab (m.dir d (pdIndex v)).table (ptIndex v)).frame = none) ∧
  (¬ m.OwnsSlot d (pdIndex v) → (m.dir d (pdIndex v)).present = true →
    ∀ j < pageEntries, (m.tab (m.dir d (pdIndex v)).table j).frame ≠ none → j = ptIndex v ∧ ∃ f, m.bitmap f = false)

theorem frame_pageOf (f : Frame) (u : Bool) : (Pte.mk (pageOf f) true u).frame = some f := by
  have hin : poolStart ≤ pageOf f ∧ pageOf f < poolStart + 8192 := ⟨Nat.le_add_right _ _, by simp [pageOf]⟩
  rw [Pte.frame, if_pos rfl, frameAt, dif_pos hin]
  simp [pageOf]

/-- a state that differs from an owned one by at most one more entry, at a frame that was not marked, is owned -/
theorem Owned.add (h : m.Owned) (hfree : ∀ f, r = some f → m.bitmap f = false)
    (hbit : ∀ f, m.bitmap f = true ∨ r = some f → m'.bitmap f = true)
    (hentry : ∀ l i f, m'.Entry l i f → m.Entry l i f ∨ l = k ∧ i = j ∧ r = some f)
    (hshown : ∀ l d, m'.owner l = some d →
      ∃ pd < pageEntries, (m'.dir d pd).present = true ∧ (m'.dir d pd).table = .priv l) : m'.Owned := by
  refine ⟨fun l i f he => ?_, fun l i l' i' f he he' => ?_, hshown⟩
  · rcases hentry l i f he with he | ⟨-, -, hr⟩
    · exact hbit f (.inl (h.marked l i f he))
    · exact hbit f (.inr hr)
  · -- an old entry shows a marked frame, the new one a frame that was free
    have hclash : ∀ l i, m.Entry l i f → r ≠ some f := fun l i he hr => by
      simpa [hfree f hr] using h.marked l i f he
    rcases hentry l i f he with he | ⟨rfl, rfl, hr⟩ <;> rcases hentry l' i' f he' with he' | ⟨rfl, rfl, hr'⟩
    · exact h.unique l i l' i' f he he'
    · exact absurd hr' (hclash l i he)
    · exact absurd hr (hclash l' i' he')
    · exact ⟨rfl, rfl⟩

/-! ## Mapping -/

@[simp] theorem place_owner (k : Fin 20) (j : ℕ) (f : Frame) : (m.place k j f).owner = m.owner := rfl
@[simp] theorem place_dir (k : Fin 20) (j : ℕ) (f : Frame) : (m.place k j f).dir = m.dir := rfl
@[simp] theorem place_dirUsed (k : Fin 20) (j : ℕ) (f : Frame) : (m.place k j f).dirUsed = m.dirUsed := rfl
@[simp] theorem place_bitmap (k : Fin 20) (j : ℕ) (f : Frame) :
    (m.place k j f).bitmap = update m.bitmap f true := rfl
@[simp] theorem privatise_bitmap (pd : ℕ) (k : Fin 20) : (m.privatise d pd k).bitmap = m.bitmap := rfl
@[simp] theorem privatise_dirUsed (pd : ℕ) (k : Fin 20) : (m.privatise d pd k).dirUsed = m.dirUsed := rfl
@[simp] theorem privatise_owner (pd : ℕ) (k : Fin 20) :
    (m.privatise d pd k).owner = update m.owner k (some d) := rfl

/-- the entries after a frame is placed: the new one, and the old ones elsewhere -/
theorem entry_place {l : Fin 20} {g : Frame} (hj : j < pageEntries) (hk : m.owner k ≠ none) :
    (m.place k j f).Entry l i g ↔ l = k ∧ i = j ∧ f = g ∨ ¬ (l = k ∧ i = j) ∧ m.Entry l i g := by
  simp only [Entry, place]
  by_cases hl : l = k
  · subst hl
    by_cases hi : i = j
    · subst hi
      simp [frame_pageOf, hk, hj]
    · simp [hi]
  · simp [hl]

/-- the table a slot shows, as `alloc_task_private_table` copies it -/
def copied (m : Paging) (d : DirRef) (pd : ℕ) : ℕ → Pte :=
  if (m.dir d pd).present then m.tab (m.dir d pd).table else fun _ => .zero

theorem entry_privatise {pd : ℕ} {l : Fin 20} {g : Frame} (hk : m.owner k = none) :
    (m.privatise d pd k).Entry l i g ↔
      l = k ∧ i < pageEntries ∧ (m.copied d pd i).frame = some g ∨ m.Entry l i g := by
  simp only [Entry, privatise, copied]
  by_cases hl : l = k
  · subst hl
    simp [hk]
  · simp [hl]

/-- what `Mappable` says of the copy -/
theorem Mappable.copied (h : m.Mappable d v) (hown : ¬ m.OwnsSlot d (pdIndex v)) (hi : i < pageEntries)
    (hf : (m.copied d (pdIndex v) i).frame ≠ none) : i = ptIndex v ∧ ∃ f, m.bitmap f = false := by
  by_cases hp : (m.dir d (pdIndex v)).present = true
  · simp only [Paging.copied, hp, if_true] at hf
    exact h.2 hown hp i hi hf
  · simp [Paging.copied, hp, Pte.zero, Pte.frame] at hf

theorem shown_privatise (h : m.Owned) (hown : ¬ m.OwnsSlot d (pdIndex v)) (hk : m.owner k = none) :
    ∀ l d', (m.privatise d (pdIndex v) k).owner l = some d' → ∃ pd < pageEntries,
      ((m.privatise d (pdIndex v) k).dir d' pd).present = true ∧
      ((m.privatise d (pdIndex v) k).dir d' pd).table = .priv l := by
  intro l d' hl
  by_cases hlk : l = k
  · subst hlk
    obtain rfl : d = d' := by simpa using hl
    exact ⟨pdIndex v, pdIndex_lt v, by simp [privatise]⟩
  · rw [privatise_owner, update_of_ne hlk] at hl
    obtain ⟨pd, hpd, hpres, htab⟩ := h.shown l d' hl
    refine ⟨pd, hpd, ?_⟩
    by_cases hd : d' = d
    · subst hd
      -- the replaced slot showed no table of d's own
      have hne : pd ≠ pdIndex v := fun he => hown ⟨he ▸ hpres, l, he ▸ htab, hl⟩
      simp [privatise, update_of_ne hne, hpres, htab]
    · simp [privatise, update_of_ne hd, hpres, htab]

/-- a table changes its owner only when the call takes it from the pool -/
theorem Maps.owner (h : Maps m d v r m') (l : Fin 20) :
    m'.owner l = m.owner l ∨ m.owner l = none ∧ m'.owner l = some d := by
  have hpriv : ∀ k, m.owner k = none → (m.privatise d (pdIndex v) k).owner l = m.owner l ∨
      m.owner l = none ∧ (m.privatise d (pdIndex v) k).owner l = some d := by
    intro k hk
    by_cases hlk : l = k
    · exact .inr ⟨hlk ▸ hk, by simp [hlk]⟩
    · exact .inl (by simp [hlk])
  cases h with
  | noTable | noFrame | reused => exact .inl rfl
  | tableOnly k _ hk | fresh k _ _ hk => exact hpriv k hk

/-- **The entries after a careful `paging_map_private_page` are the old ones and the frame it returned.** -/
theorem Maps.entry (h : Maps m d v r m') (hmap : m.Mappable d v) :
    ∃ k, (r ≠ none → m'.owner k = some d) ∧
      ∀ l i g, m'.Entry l i g ↔ m.Entry l i g ∨ l = k ∧ i = ptIndex v ∧ r = some g := by
  cases h with
  | noTable | noFrame => exact ⟨0, by simp, by simp⟩
  | tableOnly k hown hk hall =>
    -- no frame is free to overwrite what a copy would show, so the copy shows none
    refine ⟨k, by simp, fun l i g => ?_⟩
    rw [entry_privatise hk]
    simp only [reduceCtorEq, and_false, or_false]
    refine or_iff_right_of_imp ?_
    rintro ⟨-, hi, hf⟩
    obtain ⟨-, f, hfree⟩ := hmap.copied hown hi (by simp [hf])
    simp [hall f] at hfree
  | reused k f hpres htab hk hf =>
    have hnone : (m.tab (.priv k) (ptIndex v)).frame = none := htab ▸ hmap.1 ⟨hpres, k, htab, hk⟩
    refine ⟨k, fun _ => hk, fun l i g => ?_⟩
    rw [entry_place (ptIndex_lt v) (by simp [hk]), Option.some.injEq]
    by_cases hli : l = k ∧ i = ptIndex v
    · obtain ⟨rfl, rfl⟩ := hli
      simp [Entry, hnone]
    · tauto
  | fresh k f hown hk hf =>
    refine ⟨k, fun _ => by simp, fun l i g => ?_⟩
    rw [entry_place (ptIndex_lt v) (by simp), entry_privatise hk, Option.some.injEq]
    have hcopy : i < pageEntries → (m.copied d (pdIndex v) i).frame = some g → i = ptIndex v :=
      fun hi hc => (hmap.copied hown hi (by simp [hc])).1
    have hnew : l = k → ¬ m.Entry l i g := fun hl he => he.1 (hl ▸ hk)
    tauto

theorem Maps.bitmap (h : Maps m d v r m') (f : Frame) :
    m'.bitmap f = true ↔ m.bitmap f = true ∨ r = some f := by
  cases h with
  | noTable | noFrame | tableOnly => simp
  | reused k g | fresh k g =>
    by_cases hg : f = g
    · simp [hg]
    · simp [update_of_ne hg, Ne.symm hg]

theorem Maps.free (h : Maps m d v r m') (f : Frame) (hr : r = some f) : m.bitmap f = false := by
  cases h with
  | noTable | noFrame | tableOnly => cases hr
  | reused k g _ _ _ hf | fresh k g _ _ hf => exact Option.some.inj hr ▸ hf

theorem Maps.shown (h : Maps m d v r m') (hm : m.Owned) (l : Fin 20) (d' : DirRef) (hl : m'.owner l = some d') :
    ∃ pd < pageEntries, (m'.dir d' pd).present = true ∧ (m'.dir d' pd).table = .priv l := by
  cases h with
  | noTable | noFrame | reused => exact hm.shown l d' hl
  | tableOnly k hown hk | fresh k f hown hk => exact shown_privatise hm hown hk l d' hl

theorem Owned.map (hm : m.Owned) (h : Maps m d v r m') (hmap : m.Mappable d v) : m'.Owned := by
  obtain ⟨k, -, hentry⟩ := h.entry hmap
  exact hm.add (fun f hr => h.free f hr) (fun f hf => (h.bitmap f).2 hf) (fun l i g he => (hentry l i g).1 he)
    (h.shown hm)

/-- **A careful `paging_map_private_page(d, v)` gives d the frame it returns, and changes nothing else that a directory
holds.** -/
theorem Maps.holds (h : Maps m d v r m') (hmap : m.Mappable d v) (d' : DirRef) (g : Frame) :
    m'.Holds d' g ↔ m.Holds d' g ∨ d' = d ∧ r = some g := by
  obtain ⟨k, hk, hentry⟩ := h.entry hmap
  constructor
  · rintro ⟨l, i, hl, he⟩
    rcases (hentry l i g).1 he with he | ⟨rfl, -, hr⟩
    · rcases h.owner l with ho | ⟨ho, -⟩
      · exact .inl ⟨l, i, ho ▸ hl, he⟩
      · exact absurd ho he.1
    · have := hk (by simp [hr])
      exact .inr ⟨Option.some.inj (hl.symm.trans this), hr⟩
  · rintro (⟨l, i, hl, he⟩ | ⟨rfl, hr⟩)
    · have ho : m'.owner l = m.owner l := (h.owner l).resolve_right fun hn => he.1 hn.1
      exact ⟨l, i, ho.trans hl, (hentry l i g).2 (.inl he)⟩
    · exact ⟨k, ptIndex v, hk (by simp [hr]), (hentry k (ptIndex v) g).2 (.inr ⟨rfl, rfl, hr⟩)⟩

/-! ## The other calls -/

theorem Owned.share {src : DirRef} (hm : m.Owned) (hown : ¬ m.OwnsSlot d (pdIndex v)) :
    (m.sharePde d src v).Owned := by
  refine ⟨hm.marked, hm.unique, fun k d' hk => ?_⟩
  obtain ⟨pd, hpd, hpres, htab⟩ := hm.shown k d' hk
  refine ⟨pd, hpd, ?_⟩
  by_cases hd : d' = d
  · subst hd
    have hne : pd ≠ pdIndex v := fun he => hown ⟨he ▸ hpres, k, he ▸ htab, hk⟩
    simp [sharePde, setPde, update_of_ne hne, hpres, htab]
  · simp [sharePde, setPde, update_of_ne hd, hpres, htab]

/-- every table recorded as a cloned directory's belongs to one that is in use -/
def OwnersInUse (m : Paging) : Prop := ∀ k d, m.owner k = some d → m.InUse d

theorem cloneKernelDirectory_none (h : firstFree m.dirUsed = none) : m.cloneKernelDirectory = (none, m) := by
  simp [cloneKernelDirectory, h]

theorem cloneKernelDirectory_some {k : Fin 8} (h : firstFree m.dirUsed = some k) :
    m.cloneKernelDirectory = (some (.task k), { m with dirUsed := update m.dirUsed k true,
                                                       dir := update m.dir (.task k) (m.dir .kernel) }) := by
  simp [cloneKernelDirectory, h]

theorem Owned.clone (hm : m.Owned) (huse : m.OwnersInUse) : m.cloneKernelDirectory.2.Owned := by
  cases hk : firstFree m.dirUsed with
  | none => rwa [cloneKernelDirectory_none hk]
  | some k =>
    rw [cloneKernelDirectory_some hk]
    refine ⟨hm.marked, hm.unique, fun l d hl => ?_⟩
    have hne : d ≠ .task k := by
      rintro rfl
      have : m.dirUsed k = true := huse l _ hl
      simp [firstFree_free hk] at this
    simpa [update_of_ne hne] using hm.shown l d hl

theorem Owned.freeDirectory (hm : m.Owned) : (m.freeDirectory d).Owned := by
  cases d <;> exact ⟨hm.marked, hm.unique, hm.shown⟩

/-- with every owned table shown by its owner, the loop reaches all of them -/
theorem Owned.freed_iff (hm : m.Owned) (k : Fin 20) : m.Freed d pageEntries k ↔ m.owner k = some d :=
  ⟨fun h => h.1, fun h => ⟨h, hm.shown k d h⟩⟩

theorem Owned.free_owner (hm : m.Owned) (k : Fin 20) :
    (m.freePrivatePages d).owner k = if m.owner k = some d then none else m.owner k := by
  have hfree := m.freePrivatePages_freed d
  split_ifs with hk
  · exact hfree.given k ((hm.freed_iff k).2 hk)
  · exact hfree.kept k (mt (hm.freed_iff k).1 hk)

theorem Owned.free_entry (hm : m.Owned) :
    (m.freePrivatePages d).Entry k j f ↔ m.owner k ≠ some d ∧ m.Entry k j f := by
  simp only [Entry, hm.free_owner, (m.freePrivatePages_freed d).tab]
  split_ifs with hk <;> simp [hk]

/-- the frames a call of `paging_free_private_pages(d)` clears are the ones d holds -/
theorem Owned.free_bitmap (hm : m.Owned) (f : Frame) :
    (m.freePrivatePages d).bitmap f = true ↔ m.bitmap f = true ∧ ¬ m.Holds d f := by
  rw [(m.freePrivatePages_freed d).bitmap]
  refine and_congr_right fun _ => ?_
  constructor
  · rintro hall ⟨k, j, hk, he⟩
    exact hall k ((hm.freed_iff k).2 hk) j he.2.1 he.2.2
  · intro hno k hk j hj hf
    exact hno ⟨k, j, hk.1, by simp [hk.1], hj, hf⟩

/-- a frame is held by at most one directory -/
theorem Owned.holds_unique (hm : m.Owned) (h : m.Holds d f) (h' : m.Holds d' f) : d = d' := by
  obtain ⟨k, j, hk, he⟩ := h
  obtain ⟨k', j', hk', he'⟩ := h'
  obtain ⟨rfl, -⟩ := hm.unique k j k' j' f he he'
  exact Option.some.inj (hk.symm.trans hk')

theorem Owned.freePages (hm : m.Owned) : (m.freePrivatePages d).Owned := by
  have hfree := m.freePrivatePages_freed d
  refine ⟨fun k j f he => ?_, fun k j k' j' f he he' => ?_, fun k d' hk => ?_⟩
  · obtain ⟨hk, he⟩ := hm.free_entry.1 he
    refine (hm.free_bitmap f).2 ⟨hm.marked k j f he, ?_⟩
    rintro ⟨k', j', hk', he'⟩
    exact hk ((hm.unique k j k' j' f he he').1 ▸ hk')
  · exact hm.unique k j k' j' f (hm.free_entry.1 he).2 (hm.free_entry.1 he').2
  · rw [hm.free_owner] at hk
    split_ifs at hk with hd
    have hne : d' ≠ d := fun he => hd (he ▸ hk)
    rw [hfree.other d' hne]
    exact hm.shown k d' hk

theorem Owned.free_holds (hm : m.Owned) :
    (m.freePrivatePages d).Holds d' f ↔ d' ≠ d ∧ m.Holds d' f := by
  simp only [Holds, hm.free_owner, hm.free_entry]
  constructor
  · rintro ⟨k, j, hk, hne, he⟩
    rw [if_neg hne] at hk
    exact ⟨fun hd => hne (hd ▸ hk), k, j, hk, he⟩
  · rintro ⟨hd, k, j, hk, he⟩
    have hne : m.owner k ≠ some d := by simpa [hk] using hd
    exact ⟨k, j, by rw [if_neg hne, hk], hne, he⟩

/-! ## Runs -/

/-- one call of the paging interface -/
inductive PagingOp where
  | clone
  | map (d : DirRef) (v : UInt32)
  | share (dst src : DirRef) (v : UInt32)
  | freePages (d : DirRef)
  | freeDirectory (d : DirRef)

/-- what the call returned -/
inductive PagingRes where
  | dir (d : Option DirRef)
  | frame (f : Option Frame)
  | done
deriving DecidableEq

def pagingStep (m : Paging) : PagingOp → PagingRes × Paging
  | .clone => (.dir m.cloneKernelDirectory.1, m.cloneKernelDirectory.2)
  | .map d v => (.frame (m.mapPrivatePage d v).1, (m.mapPrivatePage d v).2)
  | .share dst src v => (.done, m.sharePde dst src v)
  | .freePages d => (.done, m.freePrivatePages d)
  | .freeDirectory d => (.done, m.freeDirectory d)

/-- pages are mapped in the kernel directory or a cloned one -/
def Legal (m : Paging) : PagingOp → Prop
  | .map d _ => m.InUse d
  | _ => True

/-- the calls that keep what a directory holds equal to what it obtained: a mapping is `Mappable`, a slot with a table
of the directory's own is not overwritten by a shared one, and a directory is returned after its private pages -/
def Careful (m : Paging) : PagingOp → Prop
  | .map d v => m.InUse d ∧ m.Mappable d v
  | .share dst _ v => ¬ m.OwnsSlot dst (pdIndex v)
  | .freeDirectory d => ∀ k, m.owner k ≠ some d
  | _ => True

/-- the frames that `paging_map_private_page(d, _)` has returned since `d` was last cloned or its pages last freed -/
def obtained (d : DirRef) (tr : List (PagingOp × PagingRes)) : List Frame :=
  tr.foldl (fun l e => match e with
    | (.map d' _, .frame (some f)) => if d' = d then l ++ [f] else l
    | (.clone, .dir (some d')) => if d' = d then [] else l
    | (.freePages d', _) => if d' = d then [] else l
    | _ => l) []

theorem obtained_snoc (d : DirRef) (tr : List (PagingOp × PagingRes)) (o : PagingOp) (r : PagingRes) :
    obtained d (tr ++ [(o, r)]) = match (o, r) with
      | (.map d' _, .frame (some f)) => if d' = d then obtained d tr ++ [f] else obtained d tr
      | (.clone, .dir (some d')) => if d' = d then [] else obtained d tr
      | (.freePages d', _) => if d' = d then [] else obtained d tr
      | _ => obtained d tr := by
  simp only [obtained, foldl_append, foldl_cons, foldl_nil]

/-- what a run of careful calls keeps: a directory holds what it obtained -/
structure Accounted (tr : List (PagingOp × PagingRes)) (m : Paging) : Prop where
  owned : m.Owned
  inUse : m.OwnersInUse
  holds : ∀ d f, f ∈ obtained d tr ↔ m.Holds d f

theorem Accounted.clone (h : Accounted tr m) :
    Accounted (tr ++ [(.clone, .dir m.cloneKernelDirectory.1)]) m.cloneKernelDirectory.2 := by
  have howned := h.owned.clone h.inUse
  cases hk : firstFree m.dirUsed with
  | none =>
    rw [cloneKernelDirectory_none hk]
    exact ⟨h.owned, h.inUse, fun d f => by rw [obtained_snoc]; exact h.holds d f⟩
  | some k =>
    rw [cloneKernelDirectory_some hk] at howned ⊢
    -- the slot was free, so no table is recorded as its
    have hnew : ∀ l, m.owner l ≠ some (.task k) := fun l hl => by
      have : m.dirUsed k = true := h.inUse l _ hl
      simp [firstFree_free hk] at this
    refine ⟨howned, fun l d hl => ?_, fun d f => ?_⟩
    · have := h.inUse l d hl
      cases d with
      | kernel => trivial
      | task i =>
        have hik : i ≠ k := fun he => hnew l (he ▸ hl)
        simpa [InUse, update_of_ne hik] using this
    · rw [obtained_snoc]
      by_cases hd : DirRef.task k = d
      · subst hd
        simp only [if_true, not_mem_nil, false_iff]
        rintro ⟨l, j, hl, -⟩
        exact hnew l hl
      · simp only [if_neg hd]
        exact h.holds d f

theorem Accounted.map (h : Accounted tr m) (huse : m.InUse d) (hmap : m.Mappable d v) :
    Accounted (tr ++ [(.map d v, .frame (m.mapPrivatePage d v).1)]) (m.mapPrivatePage d v).2 := by
  have hm := m.maps_mapPrivatePage d v
  generalize (m.mapPrivatePage d v).1 = r, (m.mapPrivatePage d v).2 = m' at hm ⊢
  have hused : m'.dirUsed = m.dirUsed := by cases hm <;> rfl
  refine ⟨h.owned.map hm hmap, fun l d' hl => ?_, fun d' f => ?_⟩
  · have hin : m.InUse d' := by
      rcases hm.owner l with ho | ⟨-, ho⟩
      · exact h.inUse l d' (ho ▸ hl)
      · exact Option.some.inj (hl.symm.trans ho) ▸ huse
    cases d' with
    | kernel => trivial
    | task k => exact (congrFun hused k).trans hin
  · rw [hm.holds hmap, ← h.holds, obtained_snoc]
    cases r with
    | none => simp
    | some g =>
      by_cases hd : d = d'
      · simp [hd, eq_comm]
      · simp [hd, Ne.symm hd]

theorem Accounted.freePages (h : Accounted tr m) (d : DirRef) :
    Accounted (tr ++ [(.freePages d, .done)]) (m.freePrivatePages d) := by
  refine ⟨h.owned.freePages, fun k d' hk => ?_, fun d' f => ?_⟩
  · rw [h.owned.free_owner] at hk
    split_ifs at hk
    have := h.inUse k d' hk
    cases d' with
    | kernel => trivial
    | task i => exact (congrFun (m.freePrivatePages_freed d).dirUsed i).trans this
  · rw [h.owned.free_holds, ← h.holds, obtained_snoc]
    by_cases hd : d = d'
    · simp [hd]
    · simp [hd, Ne.symm hd]

theorem Accounted.step (h : Accounted tr m) (o : PagingOp) (ho : m.Careful o) :
    Accounted (tr ++ [(o, (m.pagingStep o).1)]) (m.pagingStep o).2 := by
  cases o <;> simp only [pagingStep]
  case clone => exact h.clone
  case map d v => exact h.map ho.1 ho.2
  case share dst src v => exact ⟨h.owned.share ho, h.inUse, fun d f => by rw [obtained_snoc]; exact h.holds d f⟩
  case freePages d => exact h.freePages d
  case freeDirectory d =>
    cases d with
    | kernel => exact ⟨h.owned, h.inUse, fun d f => by rw [obtained_snoc]; exact h.holds d f⟩
    | task k =>
      refine ⟨h.owned.freeDirectory, fun l d hl => ?_, fun d f => by rw [obtained_snoc]; exact h.holds d f⟩
      have := h.inUse l d hl
      cases d with
      | kernel => trivial
      | task i =>
        have hik : i ≠ k := fun he => ho l (he ▸ hl)
        exact (update_of_ne hik false m.dirUsed).trans this

/-! ## The pools after boot -/

/-- no directory, table or frame is taken -/
structure Untaken (m : Paging) : Prop where
  dirUsed : ∀ k, m.dirUsed k = false
  owner : ∀ k, m.owner k = none
  bitmap : ∀ f, m.bitmap f = false

theorem Untaken.identityMapSlot {start stop pd : ℕ} (h : m.Untaken) (hm : identityMapSlot start stop m pd = some m') :
    m'.Untaken := by
  unfold Paging.identityMapSlot at hm
  split_ifs at hm
  all_goals
    cases hm
    exact ⟨h.dirUsed, h.owner, h.bitmap⟩

theorem Untaken.identityMapRange {p l : UInt32} (h : m.Untaken) (hm : m.identityMapRange p l = some m') :
    m'.Untaken := by
  simp only [Paging.identityMapRange] at hm
  split_ifs at hm
  · generalize List.range' _ _ = slots at hm
    induction slots generalizing m with
    | nil => exact Option.some.inj hm ▸ h
    | cons pd slots ih =>
      rw [foldlM_cons] at hm
      obtain ⟨m₁, hslot, hrest⟩ := Option.bind_eq_some_iff.1 hm
      exact ih (h.identityMapSlot hslot) hrest
  · exact Option.some.inj hm ▸ h

theorem untaken_pagingInit {fb : Framebuffer} (h : pagingInit fb = some m) : m.Untaken := by
  rw [pagingInit] at h
  obtain ⟨m₁, hlow, hfb⟩ := Option.bind_eq_some_iff.1 h
  have hzero : zeroed.Untaken := ⟨fun _ => rfl, fun _ => rfl, fun _ => rfl⟩
  exact (hzero.identityMapRange hlow).identityMapRange hfb

theorem Untaken.accounted (h : m.Untaken) : Accounted [] m := by
  have hno : ∀ k d, m.owner k ≠ some d := fun k d => by simp [h.owner k]
  refine ⟨⟨?_, ?_, fun k d hk => absurd hk (hno k d)⟩, fun k d hk => absurd hk (hno k d), fun d f => ?_⟩
  · rintro k j f ⟨hk, -⟩
    exact absurd (h.owner k) hk
  · rintro k j k' j' f ⟨hk, -⟩
    exact absurd (h.owner k) hk
  · simp only [obtained, foldl_nil, not_mem_nil, false_iff]
    rintro ⟨k, j, hk, -⟩
    exact hno k d hk

theorem accounted_run {fb : Framebuffer} {m₀ : Paging} (hboot : pagingInit fb = some m₀)
    (h : Run pagingStep Careful m₀ tr m) : Accounted tr m := by
  induction h with
  | nil => exact (untaken_pagingInit hboot).accounted
  | snoc o _ ho ih => exact ih.step o ho

/-- **Freeing is exact.** After any run of careful calls from boot, `paging_free_private_pages(d)` clears in the bitmap
exactly the frames d obtained, all of them marked until then; it returns exactly the tables recorded as d's; and every
frame another directory obtained is still marked. -/
theorem free_exact {fb : Framebuffer} {m₀ : Paging} {tr : List (PagingOp × PagingRes)}
    (hboot : pagingInit fb = some m₀) (h : Run pagingStep Careful m₀ tr m) (d : DirRef) :
    (∀ f, (m.freePrivatePages d).bitmap f = true ↔ m.bitmap f = true ∧ f ∉ obtained d tr) ∧
    (∀ f ∈ obtained d tr, m.bitmap f = true) ∧
    (∀ k, (m.freePrivatePages d).owner k = if m.owner k = some d then none else m.owner k) ∧
    ∀ d' ≠ d, ∀ f ∈ obtained d' tr, (m.freePrivatePages d).bitmap f = true := by
  have hacc := accounted_run hboot h
  have hmarked : ∀ d', ∀ f ∈ obtained d' tr, m.bitmap f = true := fun d' f hf => by
    obtain ⟨k, j, -, he⟩ := (hacc.holds d' f).1 hf
    exact hacc.owned.marked k j f he
  refine ⟨fun f => ?_, hmarked d, hacc.owned.free_owner, fun d' hd' f hf => ?_⟩
  · rw [hacc.owned.free_bitmap, hacc.holds]
  · refine (hacc.owned.free_bitmap f).2 ⟨hmarked d' f hf, fun hd => hd' ?_⟩
    exact hacc.owned.holds_unique ((hacc.holds d' f).1 hf) hd

/-- a 1024 x 768, 24 bit framebuffer where the emulator puts it -/
def vgaFb : Framebuffer := ⟨0xFD000000, 768, 3072⟩

/-- the machine right after `paging_init` with that framebuffer -/
def booted : Paging := (pagingInit vgaFb).getD zeroed

theorem pagingInit_vgaFb : pagingInit vgaFb = some booted := by
  obtain ⟨m, hm⟩ := Option.isSome_iff_exists.1 (show (pagingInit vgaFb).isSome = true by decide +kernel)
  rw [booted, hm, Option.getD_some]

/-- the kernel has mapped its page at TASK_PRIVATE_VADDR, and a directory has been cloned -/
def bootedClone : Paging := ((booted.pagingStep (.map .kernel 0x40000000)).2.pagingStep .clone).2

/-- those two calls are careful, and the kernel obtained frame 0 -/
theorem run_bootedClone : ∃ tr, Run pagingStep Careful booted tr bootedClone ∧ obtained .kernel tr = [0] ∧
    obtained (.task 0) tr = [] := by
  have hkernel : Careful booted (.map .kernel 0x40000000) :=
    ⟨trivial, fun hown => absurd hown (by decide +kernel), fun _ hp => absurd hp (by decide +kernel)⟩
  exact ⟨_, ((Run.nil booted).snoc (PagingOp.map .kernel 0x40000000) hkernel).snoc PagingOp.clone trivial,
    by decide +kernel, by decide +kernel⟩

/-- the clone maps its own page at the same address: freeing it gives back that frame alone -/
theorem free_exact_clone : ∃ tr m, Run pagingStep Careful booted tr m ∧ obtained (.task 0) tr = [1] ∧
    m.bitmap 1 = true ∧ (m.freePrivatePages (.task 0)).bitmap 1 = false ∧
    (m.freePrivatePages (.task 0)).bitmap 0 = true := by
  obtain ⟨tr, hrun, hkernel, htask⟩ := run_bootedClone
  have hmap : Careful bootedClone (.map (.task 0) 0x40000000) := by
    refine ⟨by unfold InUse; decide +kernel, fun hown => absurd hown (by decide +kernel), fun _ _ j hj hf => ⟨?_, 1, ?_⟩⟩
    · have honly : ∀ j < pageEntries, (bootedClone.tab (bootedClone.dir (.task 0) (pdIndex 0x40000000)).table j).frame ≠
          none → j = ptIndex 0x40000000 := by
        decide +kernel
      exact honly j hj hf
    · decide +kernel
  have hlast : (bootedClone.pagingStep (.map (.task 0) 0x40000000)).1 = .frame (some 1) := by decide +kernel
  have hrun' := hrun.snoc (PagingOp.map (.task 0) 0x40000000) hmap
  rw [hlast] at hrun'
  have htask' : obtained (.task 0) (tr ++ [(.map (.task 0) 0x40000000, .frame (some 1))]) = [1] := by
    simp [obtained_snoc, htask]
  have hkernel' : obtained .kernel (tr ++ [(.map (.task 0) 0x40000000, .frame (some 1))]) = [0] := by
    simp [obtained_snoc, hkernel]
  obtain ⟨hclears, hmarked, -, hothers⟩ := free_exact pagingInit_vgaFb hrun' (.task 0)
  refine ⟨_, _, hrun', htask', hmarked 1 (by simp [htask']), ?_, hothers .kernel (by simp) 0 (by simp [hkernel'])⟩
  have := mt (hclears 1).1 (by simp [htask'])
  simpa using this

/-- **A clone's private pages take the kernel's frame with them.** The kernel has its page at 0x40000000. The clone maps
the next page, 0x40001000, in the same slot: its table is a copy of the kernel's, with the kernel's frame still in it.
Freeing the clone's pages clears that frame, which the clone never obtained, while the kernel still maps it. -/
theorem free_takes_kernel_frame : ∃ tr m, Run pagingStep Legal booted tr m ∧
    tr.map Prod.fst = [.map .kernel 0x40000000, .clone, .map (.task 0) 0x40001000] ∧
    obtained .kernel tr = [0] ∧ obtained (.task 0) tr = [1] ∧
    m.bitmap 0 = true ∧ (m.freePrivatePages (.task 0)).bitmap 0 = false := by
  have h₀ : Run pagingStep Legal booted [] booted := .nil _
  have h₁ := (h₀.snoc (PagingOp.map .kernel 0x40000000) trivial).snoc PagingOp.clone trivial
  have hrun := h₁.snoc (PagingOp.map (.task 0) 0x40001000) (by unfold Legal InUse; decide +kernel)
  refine ⟨_, _, hrun, rfl, by decide +kernel, by decide +kernel, by decide +kernel, ?_⟩
  -- table 1 is the clone's, shown by its slot 256, and its entry 0 is the copied one
  have htable : ((bootedClone.pagingStep (.map (.task 0) 0x40001000)).2).Freed (.task 0) pageEntries 1 :=
    ⟨by decide +kernel, 256, by decide, by decide +kernel, by decide +kernel⟩
  have hentry : ((bootedClone.pagingStep (.map (.task 0) 0x40001000)).2.tab (.priv 1) 0).frame = some 0 := by
    decide +kernel
  rw [Bool.eq_false_iff]
  exact fun h => (((freePrivatePages_freed _ _).bitmap 0).1 h).2 1 htable 0 (by decide) hentry

end GannetOS.Mem.Paging
