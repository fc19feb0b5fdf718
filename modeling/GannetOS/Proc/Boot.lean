/-
What boot leaves in memory: `paging_init`, the three user regions and `task_init`.

- `Identity`: the kernel directory shows identity entries of boot tables only, one table a slot, and only slot 0 is open
  to user code; kept by every boot step;
- `memInv_boot`: right after `task_init` the pools are in order (`MemInv`), with one table and one frame taken, for the
  kernel's scratch page;
- `boot_region`: each page of .appbuf and .appstack is identity-mapped and open to user code in the kernel's tables.
-/
import GannetOS.Mem.Space
import GannetOS.Proc.Task

namespace GannetOS.Mem.Paging

open List

variable {m m' : Paging}

/-! ## Folds of boot steps -/

theorem foldlM_induct {P : Paging → Prop} {f : Paging → ℕ → Option Paging}
    (hstep : ∀ m m' x, P m → f m x = some m' → P m') (l : List ℕ) (hm : P m) (h : l.foldlM f m = some m') : P m' := by
  induction l generalizing m with
  | nil => exact Option.some.inj h ▸ hm
  | cons x l ih =>
    rw [foldlM_cons] at h
    obtain ⟨m₁, hx, hl⟩ := Option.bind_eq_some_iff.1 h
    exact ih (hstep m m₁ x hm hx) hl

/-! ## The identity map -/

structure Identity (m : Paging) : Prop where
  boot : ∀ pd, (m.dir .kernel pd).present = true → ∃ i, (m.dir .kernel pd).table = .boot i ∧ (i : ℕ) < m.nextTable ∧
    ∀ j < pageEntries, (m.tab (.boot i) j).present = true → (m.tab (.boot i) j).page = pd * 1024 + j
  distinct : ∀ pd pd', (m.dir .kernel pd).present = true → (m.dir .kernel pd').present = true →
    (m.dir .kernel pd).table = (m.dir .kernel pd').table → pd = pd'
  user : ∀ pd, (m.dir .kernel pd).user = true → pd = 0

/-- page `page` has an entry in the kernel's tables, with PAGE_USER as given on both levels -/
structure Mapped (m : Paging) (page : ℕ) : Prop where
  slot : (m.dir .kernel (page / 1024)).present = true
  entry : (m.tab (m.dir .kernel (page / 1024)).table (page % 1024)).present = true

/-- the entries of one slot set by `identity_map_range` -/
def fillSlot (m : Paging) (t : TableRef) (start stop pd : ℕ) : Paging :=
  { m with tab := Function.update m.tab t fun j =>
      if start ≤ pd * 1024 + j ∧ pd * 1024 + j < stop then ⟨pd * 1024 + j, true, false⟩ else m.tab t j }

/-- a fresh boot table for slot `pd` -/
def newBootTable (m : Paging) (pd : ℕ) (h : m.nextTable < 32) : Paging :=
  { m with nextTable := m.nextTable + 1,
           tab := Function.update m.tab (.boot ⟨m.nextTable, h⟩) fun _ => .zero }.setPde .kernel pd
    ⟨.boot ⟨m.nextTable, h⟩, true, false⟩

variable {start stop pd page : ℕ} {t : TableRef} {p l : UInt32}

theorem identityMapSlot_cases (h : identityMapSlot start stop m pd = some m') :
    ((m.dir .kernel pd).present = true ∧ m' = m.fillSlot (m.dir .kernel pd).table start stop pd) ∨
    ((m.dir .kernel pd).present = false ∧ ∃ hn : m.nextTable < 32,
      m' = (m.newBootTable pd hn).fillSlot (.boot ⟨m.nextTable, hn⟩) start stop pd) := by
  unfold identityMapSlot at h
  split_ifs at h with hp hn
  · exact .inl ⟨hp, (Option.some.inj h).symm⟩
  · exact .inr ⟨by simpa using hp, hn, (Option.some.inj h).symm⟩

theorem Identity.newBootTable (h : m.Identity) (hn : m.nextTable < 32) : (m.newBootTable pd hn).Identity := by
  -- the tables of the slots mapped so far are below next_free_table
  have hold : ∀ x, (m.dir .kernel x).present = true → (m.dir .kernel x).table ≠ .boot ⟨m.nextTable, hn⟩ := by
    intro x hx he
    obtain ⟨i, htab, hi, -⟩ := h.boot x hx
    rw [htab] at he
    have := congrArg Fin.val (TableRef.boot.inj he)
    simp at this
    omega
  have hslot : ∀ x, (m.newBootTable pd hn).dir .kernel x =
      if x = pd then ⟨.boot ⟨m.nextTable, hn⟩, true, false⟩ else m.dir .kernel x := by
    intro x
    simp [Paging.newBootTable, setPde, Function.update_apply]
  refine ⟨fun x hx => ?_, fun x y hx hy he => ?_, fun x hx => ?_⟩
  · rw [hslot] at hx ⊢
    split_ifs at hx ⊢ with hxp
    · refine ⟨_, rfl, by simp [Paging.newBootTable, setPde], fun j _ hj => ?_⟩
      simp [Paging.newBootTable, setPde, Pte.zero] at hj
    · obtain ⟨i, htab, hi, hident⟩ := h.boot x hx
      have hne : i ≠ ⟨m.nextTable, hn⟩ := fun he => hold x hx (he ▸ htab)
      refine ⟨i, htab, Nat.lt_succ_of_lt hi, ?_⟩
      simpa [Paging.newBootTable, setPde, hne] using hident
  · rw [hslot] at hx hy
    rw [hslot, hslot] at he
    by_cases hxp : x = pd <;> by_cases hyp : y = pd
    · exact hxp.trans hyp.symm
    · rw [if_neg hyp] at hy
      rw [if_pos hxp, if_neg hyp] at he
      exact absurd he.symm (hold y hy)
    · rw [if_neg hxp] at hx
      rw [if_neg hxp, if_pos hyp] at he
      exact absurd he (hold x hx)
    · rw [if_neg hxp] at hx
      rw [if_neg hyp] at hy
      rw [if_neg hxp, if_neg hyp] at he
      exact h.distinct x y hx hy he
  · rw [hslot] at hx
    split_ifs at hx with hxp
    exact h.user x hx

theorem Identity.fillSlot (h : m.Identity) (hp : (m.dir .kernel pd).present = true)
    (ht : (m.dir .kernel pd).table = t) : (m.fillSlot t start stop pd).Identity := by
  refine ⟨fun x hx => ?_, h.distinct, h.user⟩
  obtain ⟨i, htab, hi, hident⟩ := h.boot x hx
  refine ⟨i, htab, hi, fun j hj he => ?_⟩
  by_cases hti : TableRef.boot i = t
  · obtain rfl : x = pd := h.distinct x pd hx hp (by rw [htab, ht, hti])
    simp only [Paging.fillSlot, hti, Function.update_self] at he ⊢
    split_ifs at he ⊢ with hr
    · rfl
    · exact hti ▸ hident j hj (hti.symm ▸ he)
  · simp only [Paging.fillSlot, Function.update_of_ne hti] at he ⊢
    exact hident j hj he

theorem Identity.identityMapSlot (h : m.Identity) (hm : identityMapSlot start stop m pd = some m') :
    m'.Identity := by
  rcases identityMapSlot_cases hm with ⟨hp, rfl⟩ | ⟨-, hn, rfl⟩
  · exact h.fillSlot hp rfl
  · exact (h.newBootTable hn).fillSlot (by simp [Paging.newBootTable, setPde])
      (by simp [Paging.newBootTable, setPde])

theorem Mapped.fillSlot (h : m.Mapped page) :
    (m.fillSlot t start stop pd).Mapped page := by
  refine ⟨h.slot, ?_⟩
  have he := h.entry
  simp only [Paging.fillSlot]
  by_cases ht : (m.dir .kernel (page / 1024)).table = t
  · rw [ht] at he
    rw [ht, Function.update_self]
    split_ifs
    · rfl
    · exact he
  · rwa [Function.update_of_ne ht]

theorem Mapped.identityMapSlot (hid : m.Identity) (h : m.Mapped page)
    (hm : identityMapSlot start stop m pd = some m') : m'.Mapped page := by
  rcases identityMapSlot_cases hm with ⟨-, rfl⟩ | ⟨hp, hn, rfl⟩
  · exact h.fillSlot
  · apply Mapped.fillSlot
    have hne : page / 1024 ≠ pd := fun he => by simp [← he, h.slot] at hp
    obtain ⟨i, htab, hi, -⟩ := hid.boot _ h.slot
    have hti : i ≠ ⟨m.nextTable, hn⟩ := fun he => by simp [he] at hi
    have hslot : (m.newBootTable pd hn).dir .kernel (page / 1024) = m.dir .kernel (page / 1024) := by
      simp [newBootTable, setPde, hne]
    refine ⟨by rw [hslot]; exact h.slot, ?_⟩
    have he := h.entry
    rw [htab] at he
    rw [hslot, htab]
    simpa [newBootTable, setPde, hti] using he

/-- a page of the range is mapped when its slot has been done -/
theorem mapped_identityMapSlot (hs : start ≤ page) (he : page < stop)
    (hm : identityMapSlot start stop m (page / 1024) = some m') : m'.Mapped page := by
  have hpage : page / 1024 * 1024 + page % 1024 = page := Nat.div_add_mod' page 1024
  rcases identityMapSlot_cases hm with ⟨hp, rfl⟩ | ⟨-, hn, rfl⟩
  · exact ⟨hp, by simp [fillSlot, hpage, hs, he]⟩
  · exact ⟨by simp [fillSlot, newBootTable, setPde], by simp [fillSlot, newBootTable, setPde, hpage, hs, he]⟩

theorem Identity.identityMapRange (h : m.Identity) (hm : m.identityMapRange p l = some m') :
    m'.Identity := by
  simp only [Paging.identityMapRange] at hm
  split_ifs at hm
  · exact foldlM_induct (fun _ _ _ h hm => h.identityMapSlot hm) _ h hm
  · exact Option.some.inj hm ▸ h

theorem Mapped.identityMapRange (hid : m.Identity) (h : m.Mapped page) (hm : m.identityMapRange p l = some m') :
    m'.Mapped page := by
  simp only [Paging.identityMapRange] at hm
  split_ifs at hm
  · have := foldlM_induct (P := fun m => m.Identity ∧ m.Mapped page)
      (fun _ _ _ h hm => ⟨h.1.identityMapSlot hm, h.2.identityMapSlot h.1 hm⟩) _ ⟨hid, h⟩ hm
    exact this.2
  · exact Option.some.inj hm ▸ h

/-- a page of the range is mapped at the end -/
theorem mapped_identityMapRange (hid : m.Identity) (hs : p.toNat / 4096 ≤ page)
    (he : page < (p + l + 4095).toNat / 4096) (hm : m.identityMapRange p l = some m') : m'.Mapped page := by
  simp only [Paging.identityMapRange] at hm
  rw [if_pos (by omega)] at hm
  have hslot : page / 1024 ∈ List.range' (p.toNat / 4096 / 1024)
      (((p + l + 4095).toNat / 4096 - 1) / 1024 + 1 - p.toNat / 4096 / 1024) := by
    rw [mem_range'_1]
    have h₁ : p.toNat / 4096 / 1024 ≤ page / 1024 := Nat.div_le_div_right hs
    have h₂ : page / 1024 ≤ ((p + l + 4095).toNat / 4096 - 1) / 1024 := Nat.div_le_div_right (by omega)
    omega
  -- the identity map travels along, since it keeps fresh tables apart from the page's own
  generalize List.range' _ _ = slots at hm hslot
  induction slots generalizing m with
  | nil => cases hslot
  | cons pd slots ih =>
    rw [foldlM_cons] at hm
    obtain ⟨m₁, hpd, hrest⟩ := Option.bind_eq_some_iff.1 hm
    rcases List.mem_cons.1 hslot with rfl | hslot
    · have := foldlM_induct (P := fun m => m.Identity ∧ m.Mapped page)
        (fun _ _ _ h hm => ⟨h.1.identityMapSlot hm, h.2.identityMapSlot h.1 hm⟩) slots
        ⟨hid.identityMapSlot hpd, mapped_identityMapSlot hs he hpd⟩ hrest
      exact this.2
    · exact ih (hid.identityMapSlot hpd) hrest hslot

theorem identity_zeroed : zeroed.Identity :=
  ⟨fun pd h => by simp [zeroed, Pde.zero] at h, fun pd _ h => by simp [zeroed, Pde.zero] at h,
    fun pd h => by simp [zeroed, Pde.zero] at h⟩

/-- **The low 64 MB are identity-mapped after `paging_init`.** -/
theorem identity_pagingInit {fb : Framebuffer} (h : pagingInit fb = some m) :
    m.Identity ∧ ∀ page < 16384, m.Mapped page := by
  rw [pagingInit] at h
  obtain ⟨m₁, hlow, hfb⟩ := Option.bind_eq_some_iff.1 h
  have hid := identity_zeroed.identityMapRange hlow
  refine ⟨hid.identityMapRange hfb, fun page hpage => ?_⟩
  exact (mapped_identityMapRange identity_zeroed (by simp) hpage hlow).identityMapRange hid hfb

/-! ## User regions and guard pages -/

/-- page `page` is mapped and open to user code on both levels -/
structure Open (m : Paging) (page : ℕ) : Prop extends Mapped m page where
  slotUser : (m.dir .kernel (page / 1024)).user = true
  entryUser : (m.tab (m.dir .kernel (page / 1024)).table (page % 1024)).user = true

/-- the table entry of one page changed in a way that keeps its page number and sets no PAGE_PRESENT -/
theorem Identity.setPte (h : m.Identity) {j : ℕ} {e : Pte} (hpage : e.page = (m.tab t j).page)
    (hpres : e.present = true → (m.tab t j).present = true) : (m.setPte t j e).Identity := by
  refine ⟨fun x hx => ?_, h.distinct, h.user⟩
  obtain ⟨i, htab, hi, hident⟩ := h.boot x hx
  refine ⟨i, htab, hi, fun l hl he => ?_⟩
  by_cases ht : TableRef.boot i = t
  · subst ht
    by_cases hlj : l = j
    · subst hlj
      simp only [Paging.setPte, Function.update_self] at he ⊢
      rw [hpage]
      exact hident l hl (hpres he)
    · simp only [Paging.setPte, Function.update_self, Function.update_of_ne hlj] at he ⊢
      exact hident l hl he
  · simp only [Paging.setPte, Function.update_of_ne ht] at he ⊢
    exact hident l hl he

theorem Identity.openSlot (h : m.Identity) (hpd : pd = 0) :
    (m.setPde .kernel pd { m.dir .kernel pd with user := true }).Identity := by
  have hslot : ∀ x, (m.setPde .kernel pd { m.dir .kernel pd with user := true }).dir .kernel x =
      if x = pd then { m.dir .kernel pd with user := true } else m.dir .kernel x := by
    intro x
    simp [setPde, Function.update_apply]
  have hkeep : ∀ x, ((m.setPde .kernel pd { m.dir .kernel pd with user := true }).dir .kernel x).present =
        (m.dir .kernel x).present ∧
      ((m.setPde .kernel pd { m.dir .kernel pd with user := true }).dir .kernel x).table = (m.dir .kernel x).table := by
    intro x
    rw [hslot]
    split_ifs with hx <;> simp [hx]
  refine ⟨fun x hx => ?_, fun x y hx hy he => ?_, fun x hx => ?_⟩
  · rw [(hkeep x).1] at hx
    rw [(hkeep x).2]
    exact h.boot x hx
  · rw [(hkeep x).1] at hx
    rw [(hkeep y).1] at hy
    rw [(hkeep x).2, (hkeep y).2] at he
    exact h.distinct x y hx hy he
  · rw [hslot] at hx
    split_ifs at hx with hxp
    · exact hxp.trans hpd
    · exact h.user x hx

theorem Identity.markUser (h : m.Identity) (hpage : page < 1024) : (m.markUser page).Identity := by
  have hpd : page / 1024 = 0 := Nat.div_eq_of_lt hpage
  simp only [Paging.markUser]
  split_ifs
  · exact (h.openSlot hpd).setPte rfl id
  · exact h.openSlot hpd
  · exact h

/-- `m'` is `m` with PAGE_USER set here and there -/
structure Opens (m m' : Paging) : Prop where
  present : ∀ x, (m'.dir .kernel x).present = (m.dir .kernel x).present
  table : ∀ x, (m'.dir .kernel x).table = (m.dir .kernel x).table
  user : ∀ x, (m.dir .kernel x).user = true → (m'.dir .kernel x).user = true
  entry : ∀ t j, (m'.tab t j).present = (m.tab t j).present
  entryUser : ∀ t j, (m.tab t j).user = true → (m'.tab t j).user = true

theorem opens_setPde : Opens m (m.setPde .kernel pd { m.dir .kernel pd with user := true }) := by
  refine ⟨fun x => ?_, fun x => ?_, fun x hx => ?_, fun _ _ => rfl, fun _ _ => id⟩
  all_goals by_cases hx : x = pd <;> simp_all [setPde]

theorem opens_setPte {j : ℕ} : Opens m (m.setPte t j { m.tab t j with user := true }) := by
  refine ⟨fun _ => rfl, fun _ => rfl, fun _ => id, fun t' l => ?_, fun t' l hu => ?_⟩
  all_goals by_cases ht : t' = t <;> by_cases hl : l = j <;> simp_all [setPte]

theorem Opens.trans {m'' : Paging} (h : Opens m m') (h' : Opens m' m'') : Opens m m'' :=
  ⟨fun x => (h'.present x).trans (h.present x), fun x => (h'.table x).trans (h.table x),
    fun x hx => h'.user x (h.user x hx), fun t j => (h'.entry t j).trans (h.entry t j),
    fun t j hu => h'.entryUser t j (h.entryUser t j hu)⟩

theorem opens_markUser (m : Paging) (page : ℕ) : Opens m (m.markUser page) := by
  simp only [markUser]
  split_ifs
  · exact opens_setPde.trans opens_setPte
  · exact opens_setPde
  · exact ⟨fun _ => rfl, fun _ => rfl, fun _ => id, fun _ _ => rfl, fun _ _ => id⟩

theorem Opens.mapped (h : Opens m m') (hm : m.Mapped page) : m'.Mapped page :=
  ⟨(h.present _).trans hm.slot, by rw [h.table, h.entry]; exact hm.entry⟩

theorem Opens.open (h : Opens m m') (hm : m.Open page) : m'.Open page :=
  ⟨h.mapped hm.toMapped, h.user _ hm.slotUser, by rw [h.table]; exact h.entryUser _ _ hm.entryUser⟩

theorem Mapped.open_markUser (h : m.Mapped page) : (m.markUser page).Open page := by
  refine ⟨(opens_markUser m page).mapped h, ?_, ?_⟩
  · have he := h.entry
    simp [markUser, h.slot, setPde, setPte, he]
  · have he := h.entry
    simp [markUser, h.slot, setPde, setPte, he]

theorem foldl_markUser (l : List ℕ) (m : Paging) : Opens m (l.foldl markUser m) := by
  induction l generalizing m with
  | nil => exact ⟨fun _ => rfl, fun _ => rfl, fun _ => id, fun _ _ => rfl, fun _ _ => id⟩
  | cons page l ih => exact (opens_markUser m page).trans (ih _)

/-- marking a region keeps the identity map, and opens each of its mapped pages -/
theorem markKernelRegionUser_spec (h : m.Identity) (start stop : ℕ) (hstop : stop ≤ 1024) :
    (m.markKernelRegionUser start stop).Identity ∧ Opens m (m.markKernelRegionUser start stop) ∧
      ∀ page, start ≤ page → page < stop → m.Mapped page → (m.markKernelRegionUser start stop).Open page := by
  have hlt : ∀ page ∈ List.range' start (stop - start), page < 1024 := by
    intro page hpage
    rw [mem_range'_1] at hpage
    omega
  refine ⟨?_, foldl_markUser _ _, fun page hs he hm => ?_⟩
  · simp only [markKernelRegionUser]
    generalize List.range' start (stop - start) = l at hlt
    induction l generalizing m with
    | nil => exact h
    | cons page l ih =>
      exact ih (h.markUser (hlt page mem_cons_self)) fun q hq => hlt q (mem_cons_of_mem _ hq)
  · have hmem : page ∈ List.range' start (stop - start) := by
      rw [mem_range'_1]
      omega
    obtain ⟨l₁, l₂, hl⟩ := append_of_mem hmem
    rw [markKernelRegionUser, hl, foldl_append, foldl_cons]
    exact (foldl_markUser _ _).open ((foldl_markUser l₁ m).mapped hm).open_markUser

theorem Identity.unmapPage (h : m.Identity) (page : ℕ) : (m.unmapPage page).Identity := by
  simp only [Paging.unmapPage]
  split_ifs
  · exact h.setPte rfl (by simp)
  · exact h

/-- unmapping one page leaves the others open -/
theorem Open.unmapPage (hid : m.Identity) {q : ℕ} (h : m.Open q) (hne : q ≠ page) : (m.unmapPage page).Open q := by
  simp only [Paging.unmapPage]
  split_ifs with hp
  · have hentry : (m.setPte (m.dir .kernel (page / 1024)).table (page % 1024)
        { m.tab (m.dir .kernel (page / 1024)).table (page % 1024) with present := false }).tab
        (m.dir .kernel (q / 1024)).table (q % 1024) = m.tab (m.dir .kernel (q / 1024)).table (q % 1024) := by
      by_cases ht : (m.dir .kernel (q / 1024)).table = (m.dir .kernel (page / 1024)).table
      · have hslot := hid.distinct _ _ h.slot hp ht
        have hj : q % 1024 ≠ page % 1024 := by omega
        simp [setPte, ht, hj]
      · simp [setPte, ht]
    refine ⟨⟨h.slot, ?_⟩, h.slotUser, ?_⟩
    · exact (congrArg Pte.present hentry).trans h.entry
    · exact (congrArg Pte.user hentry).trans h.entryUser
  · exact h

/-! ## The pools -/

theorem Untaken.markUser (h : m.Untaken) (page : ℕ) : (m.markUser page).Untaken := by
  simp only [Paging.markUser]
  split_ifs <;> exact ⟨h.dirUsed, h.owner, h.bitmap⟩

theorem Untaken.markKernelRegionUser (h : m.Untaken) (start stop : ℕ) : (m.markKernelRegionUser start stop).Untaken := by
  simp only [Paging.markKernelRegionUser]
  generalize List.range' start (stop - start) = l
  induction l generalizing m with
  | nil => exact h
  | cons page l ih => exact ih (h.markUser page)

theorem Untaken.unmapPage (h : m.Untaken) (page : ℕ) : (m.unmapPage page).Untaken := by
  simp only [Paging.unmapPage]
  split_ifs <;> exact ⟨h.dirUsed, h.owner, h.bitmap⟩

/-- the kernel's own scratch page, mapped with every pool untouched -/
theorem memInv_mapKernel {v : UInt32} (h : m.Identity) (hu : m.Untaken) (hv : pdIndex v = 256) (hpt : ptIndex v = 0) :
    MemInv (m.mapPrivatePage .kernel v).2 (m.mapPrivatePage .kernel v).2 ∧
      ∀ x, x ≠ 256 → (m.mapPrivatePage .kernel v).2.dir .kernel x = m.dir .kernel x := by
  have hm := m.maps_mapPrivatePage .kernel v
  have hno : ¬ m.OwnsSlot .kernel (pdIndex v) := fun ⟨_, k, _, hk⟩ => by simp [hu.owner k] at hk
  -- slot 256 is beyond the pool's identity map, so the copy shows no pool frame
  have hclean : ∀ j < pageEntries, (m.copied .kernel 256 j).frame = none := by
    intro j hj
    simp only [Paging.copied]
    split_ifs with hp
    · obtain ⟨i, htab, -, hident⟩ := h.boot 256 hp
      rw [htab, Pte.frame]
      split_ifs with he
      · rw [hident j hj he]
        exact frameAt_none (by omega)
      · rfl
    · simp [Pte.zero, Pte.frame]
  have hmap : m.Mappable .kernel v := by
    refine ⟨fun hown => absurd hown hno, fun _ hp j hj hf => absurd ?_ hf⟩
    have := hclean j hj
    rwa [Paging.copied, if_pos (hv ▸ hp), ← hv] at this
  have hacc := hu.accounted
  generalize (m.mapPrivatePage .kernel v).1 = r, (m.mapPrivatePage .kernel v).2 = m' at hm ⊢
  have howned := hacc.owned.map hm hmap
  have hexact := hm.exact hmap fun f hf => by simp [hu.bitmap f] at hf
  refine ⟨?_, fun x hx => hm.slot (hv ▸ hx)⟩
  have hslot : ∀ x, x ≠ 256 → m'.dir .kernel x = m.dir .kernel x := fun x hx => hm.slot (hv ▸ hx)
  have hused : m'.dirUsed = m.dirUsed := hm.dirUsed
  have hboot := hm.local.boot
  cases hm with
  | noTable _ hall => exact absurd (hu.owner 0) (hall 0)
  | noFrame _ hall | tableOnly _ _ _ hall =>
    have := hall 0
    simp [hu.bitmap 0] at this
  | reused k f _ _ hk => simp [hu.owner k] at hk
  | fresh k f _ hk hf =>
    have hown : ∀ l d, ((m.privatise .kernel (pdIndex v) k).place k (ptIndex v) f).owner l = some d →
        l = k ∧ d = .kernel := by
      intro l d hl
      by_cases hlk : l = k
      · subst hlk
        simp at hl
        exact ⟨rfl, hl.symm⟩
      · simp [hlk, hu.owner l] at hl
    refine ⟨howned, ⟨fun pd hpd h256 hp => ?_, fun pd hpd h256 huser => ?_, ⟨k, f, ?_, by simp, ?_, ?_⟩, ?_⟩,
      SameKernel.refl _, hexact, fun i _ l hl => ?_, fun i hi => ?_⟩
    · rw [hslot pd h256] at hp ⊢
      obtain ⟨i, htab, -, hident⟩ := h.boot pd hp
      refine ⟨i, htab, ?_⟩
      rw [hboot]
      exact hident
    · rw [hslot pd h256] at huser
      exact h.user pd huser
    · simp [privatise, hv]
    · simp [place, hpt]
    · intro j hj h0
      have := hclean j hj
      rw [← hv] at this
      simpa [place, privatise, hpt, h0, Paging.copied] using this
    · intro l hl
      rw [(hown l _ hl).1]
      simp [privatise, hv]
    · exact absurd (hown l _ hl).2 (by simp)
    · rw [hused, hu.dirUsed] at hi
      cases hi

end GannetOS.Mem.Paging

namespace GannetOS.Proc.Kernel

open GannetOS.Mem
open Function (update update_apply update_of_ne update_self)

variable {s : Kernel} {l : Layout}

/-- the guard pages lie below .appbuf -/
theorem initGuards_spec (l : Layout) {m : Paging} (hid : m.Identity) (hu : m.Untaken)
    (hopen : ∀ page, 0x200 ≤ page → page < 0x214 → m.Open page) :
    (initGuards l m).Identity ∧ (initGuards l m).Untaken ∧
      ∀ page, 0x200 ≤ page → page < 0x214 → (initGuards l m).Open page := by
  refine Core.foldl_range (I := fun _ (m' : Paging) =>
    m'.Identity ∧ m'.Untaken ∧ ∀ page, 0x200 ≤ page → page < 0x214 → m'.Open page) ⟨hid, hu, hopen⟩ ?_
  rintro n m' hn ⟨hid', hu', hopen'⟩
  refine ⟨hid'.unmapPage _, hu'.unmapPage _, fun page hs he => (hopen' page hs he).unmapPage hid' ?_⟩
  have := l.fits
  omega

/-- memory just before `task_init` maps the kernel's scratch page -/
theorem boot_memory (h : boot l = some s) : ∃ m, s = taskInit l m ∧ (initGuards l m).Identity ∧ (initGuards l m).Untaken ∧
    ∀ page, 0x200 ≤ page → page < 0x214 → (initGuards l m).Open page := by
  obtain ⟨m, hm, rfl⟩ := Option.map_eq_some_iff.1 h
  refine ⟨m, rfl, ?_⟩
  rw [bootMemory] at hm
  obtain ⟨m₁, hinit, hm⟩ := Option.bind_eq_some_iff.1 hm
  obtain rfl := Option.some.inj hm
  have hfits := l.fits
  have htramp := l.usertramp_le
  obtain ⟨hid, hmapped⟩ := Paging.identity_pagingInit hinit
  obtain ⟨hid₁, hopen₁, hbuf⟩ := Paging.markKernelRegionUser_spec hid 0x200 0x210 (by norm_num)
  obtain ⟨hid₂, hopen₂, hstack⟩ := Paging.markKernelRegionUser_spec hid₁ 0x210 0x214 (by norm_num)
  obtain ⟨hid₃, hopen₃, -⟩ := Paging.markKernelRegionUser_spec hid₂ (l.usertrampStart / 4096)
    ((l.usertrampEnd + 4095) / 4096) (by omega)
  have hregion : ∀ page, 0x200 ≤ page → page < 0x214 →
      (((m₁.markKernelRegionUser 0x200 0x210).markKernelRegionUser 0x210 0x214).markKernelRegionUser
        (l.usertrampStart / 4096) ((l.usertrampEnd + 4095) / 4096)).Open page := by
    intro page hs he
    apply hopen₃.open
    have hpage := hmapped page (by omega)
    by_cases hb : page < 0x210
    · exact hopen₂.open (hbuf page hs hb hpage)
    · exact hstack page (by omega) he (hopen₁.mapped hpage)
  have huntaken := (((Paging.untaken_pagingInit hinit).markKernelRegionUser 0x200 0x210).markKernelRegionUser 0x210
    0x214).markKernelRegionUser (l.usertrampStart / 4096) ((l.usertrampEnd + 4095) / 4096)
  generalize ((m₁.markKernelRegionUser 0x200 0x210).markKernelRegionUser 0x210 0x214).markKernelRegionUser
    (l.usertrampStart / 4096) ((l.usertrampEnd + 4095) / 4096) = m at hid₃ hregion huntaken
  exact initGuards_spec l hid₃ huntaken hregion

/-- **The pools right after `task_init` are in order.** -/
theorem memInv_boot (h : boot l = some s) : Paging.MemInv s.mem s.mem := by
  obtain ⟨m, rfl, hid, hu, -⟩ := boot_memory h
  exact (Paging.memInv_mapKernel hid hu (by decide) (by decide)).1

/-- **Every page of .appbuf and .appstack is open to user code in the kernel's own tables**, where it is the page of the
same number. -/
theorem boot_region (h : boot l = some s) {page : ℕ} (hs : 0x200 ≤ page) (he : page < 0x214) :
    (s.mem.dir .kernel 0).present = true ∧ (s.mem.dir .kernel 0).user = true ∧
      s.mem.copied .kernel 0 page = ⟨page, true, true⟩ := by
  obtain ⟨m, rfl, hid, hu, hopen⟩ := boot_memory h
  obtain ⟨hinv, hslot⟩ := Paging.memInv_mapKernel (v := privateVaddr) hid hu (by decide) (by decide)
  have hpage := hopen page hs he
  have hdiv : page / 1024 = 0 := by omega
  have hmod : page % 1024 = page := by omega
  have hp := hpage.slot
  have hpu := hpage.slotUser
  have hq := hpage.entry
  have hqu := hpage.entryUser
  rw [hdiv] at hp hpu
  rw [hdiv, hmod] at hq hqu
  have hdir : (taskInit l m).mem.dir .kernel 0 = (initGuards l m).dir .kernel 0 := hslot 0 (by simp)
  refine ⟨hdir ▸ hp, hdir ▸ hpu, ?_⟩
  obtain ⟨i, htab, -, hident⟩ := hid.boot 0 hp
  have hboot : (taskInit l m).mem.tab (.boot i) = (initGuards l m).tab (.boot i) :=
    (Paging.maps_mapPrivatePage _ _ _).local.boot i
  rw [htab] at hq hqu
  have hnum : ((initGuards l m).tab (.boot i) page).page = page := by
    simpa using hident page (by simp only [pageEntries]; omega) hq
  rw [Paging.copied, hdir, if_pos hp, htab, hboot]
  cases he : (initGuards l m).tab (.boot i) page with
  | mk n p u => simp_all

end GannetOS.Proc.Kernel
