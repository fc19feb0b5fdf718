/-
The private part of a task's address space, and why the three pools never run out.

A task's directory shows the kernel's slots except where it has private tables: one for its main slot (slot 0 with the
code and stack of an app, or slot 320 with the stack of a spawned child) and one for its scratch page at slot 256. Each
private table is the kernel's table of that slot with the entries of the mapped pages replaced (`Filled`).

- `MemInv`: every directory in use is such a `Private` space, every marked frame is shown by an owned table, and the
  kernel's own part is what boot left;
- `MemInv.exists_table`, `MemInv.exists_frame`: 8 directories with two tables each and the kernel with one are fewer than
  20 tables, and their pages are fewer than 8192 frames, so both pools always have room;
- `MemInv.clone`, `MemInv.share`, `MemInv.mapMain`, `MemInv.mapScratch`, `MemInv.release`: the calls that build and
  release a space succeed and keep `MemInv`, and disturb no other directory (`Local`).
-/
import GannetOS.Mem.Owned

namespace GannetOS.Mem.Paging

open GannetOS.Core

variable {m m' m'' m₀ : Paging} {d d' : DirRef} {v : UInt32}

/-! ## What a call leaves alone -/

/-- directory `d`, its tables and their entries are the same in `m` and `m'` -/
structure Undisturbed (m m' : Paging) (d : DirRef) : Prop where
  dir : m'.dir d = m.dir d
  owner : ∀ k, m'.owner k = some d ↔ m.owner k = some d
  tab : ∀ k, m.owner k = some d → m'.tab (.priv k) = m.tab (.priv k)

/-- nothing is disturbed but directory `d` -/
structure Local (d : DirRef) (m m' : Paging) : Prop where
  others : ∀ d' ≠ d, Undisturbed m m' d'
  boot : ∀ i, m'.tab (.boot i) = m.tab (.boot i)

theorem Undisturbed.refl (m : Paging) (d : DirRef) : Undisturbed m m d := ⟨rfl, fun _ => Iff.rfl, fun _ _ => rfl⟩

theorem Undisturbed.trans (h : Undisturbed m m' d) (h' : Undisturbed m' m'' d) : Undisturbed m m'' d :=
  ⟨h'.dir.trans h.dir, fun k => (h'.owner k).trans (h.owner k),
    fun k hk => (h'.tab k ((h.owner k).2 hk)).trans (h.tab k hk)⟩

theorem Local.refl (d : DirRef) (m : Paging) : Local d m m := ⟨fun d' _ => Undisturbed.refl m d', fun _ => rfl⟩

theorem Local.trans (h : Local d m m') (h' : Local d m' m'') : Local d m m'' :=
  ⟨fun d' hd' => (h.others d' hd').trans (h'.others d' hd'), fun i => (h'.boot i).trans (h.boot i)⟩

variable {pd j p : ℕ} {k : Fin 20} {f : Frame} {r : Option Frame} {idx : ℕ → ℕ} {i : Fin 8}

theorem Local.privatise (hk : m.owner k = none) : Local d m (m.privatise d pd k) := by
  refine ⟨fun d' hd' => ⟨?_, fun l => ?_, fun l hl => ?_⟩, fun i => ?_⟩
  · simp [Paging.privatise, hd']
  · by_cases hl : l = k
    · simp [hl, hk, Ne.symm hd']
    · simp [hl]
  · have hlk : l ≠ k := fun he => by simp [he, hk] at hl
    simp [Paging.privatise, hlk]
  · simp [Paging.privatise]

theorem Local.place (hk : m.owner k = some d) : Local d m (m.place k j f) := by
  refine ⟨fun d' hd' => ⟨rfl, fun l => Iff.rfl, fun l hl => ?_⟩, fun i => ?_⟩
  · have hlk : l ≠ k := fun he => hd' (Option.some.inj ((he ▸ hl).symm.trans hk))
    simp [Paging.place, hlk]
  · simp [Paging.place]

theorem Maps.local (h : Maps m d v r m') : Local d m m' := by
  cases h with
  | noTable | noFrame => exact Local.refl d m
  | tableOnly k _ hk => exact Local.privatise hk
  | reused k f _ _ hk => exact Local.place hk
  | fresh k f _ hk => exact (Local.privatise hk).trans (Local.place (by simp))

theorem local_share {src : DirRef} : Local d m (m.sharePde d src v) :=
  ⟨fun d' hd' => ⟨by simp [sharePde, setPde, hd'], fun _ => Iff.rfl, fun _ _ => rfl⟩, fun _ => rfl⟩

theorem local_freePages (m : Paging) (d : DirRef) (hm : m.Owned) : Local d m (m.freePrivatePages d) := by
  have hfree := m.freePrivatePages_freed d
  refine ⟨fun d' hd' => ⟨hfree.other d' hd', fun k => ?_, fun k _ => by rw [hfree.tab]⟩, fun i => by rw [hfree.tab]⟩
  rw [hm.free_owner]
  split_ifs with hk
  · simp [hk, Ne.symm hd']
  · exact Iff.rfl

/-! ## The kernel's directory -/

/-- the kernel directory after `task_init`: slot 256 shows the kernel's own private table, with its scratch page and no
other pool frame; every other slot is identity-mapped through a boot table, and only slot 0 is open to user code -/
structure KernelMap (m : Paging) : Prop where
  boot : ∀ pd < pageEntries, pd ≠ 256 → (m.dir .kernel pd).present = true → ∃ i, (m.dir .kernel pd).table = .boot i ∧
    ∀ j < pageEntries, (m.tab (.boot i) j).present = true → (m.tab (.boot i) j).page = pd * 1024 + j
  user : ∀ pd < pageEntries, pd ≠ 256 → (m.dir .kernel pd).user = true → pd = 0
  scratch : ∃ k f, m.dir .kernel 256 = ⟨.priv k, true, true⟩ ∧ m.owner k = some .kernel ∧
    m.tab (.priv k) 0 = ⟨pageOf f, true, true⟩ ∧ ∀ j < pageEntries, j ≠ 0 → (m.tab (.priv k) j).frame = none
  tables : ∀ k, m.owner k = some .kernel → (m.dir .kernel 256).table = .priv k

/-- the kernel's directory, its table and the boot tables are the same -/
structure SameKernel (m m' : Paging) : Prop where
  kernel : Undisturbed m m' .kernel
  boot : ∀ i, m'.tab (.boot i) = m.tab (.boot i)

theorem SameKernel.refl (m : Paging) : SameKernel m m := ⟨Undisturbed.refl m _, fun _ => rfl⟩

theorem SameKernel.trans (h : SameKernel m m') (h' : SameKernel m' m'') : SameKernel m m'' :=
  ⟨h.kernel.trans h'.kernel, fun i => (h'.boot i).trans (h.boot i)⟩

theorem Local.sameKernel (h : Local d m m') (hd : d ≠ .kernel) : SameKernel m m' := ⟨h.others _ hd.symm, h.boot⟩

/-- a slot shows the same entries before and after -/
theorem SameKernel.copied (h : SameKernel m m') (hk : m.KernelMap) (hpd : pd < pageEntries) :
    m'.copied .kernel pd = m.copied .kernel pd := by
  simp only [Paging.copied, h.kernel.dir]
  split_ifs with hp
  · by_cases h256 : pd = 256
    · subst h256
      obtain ⟨k, f, hdir, hown, -, -⟩ := hk.scratch
      rw [hdir]
      exact h.kernel.tab k hown
    · obtain ⟨i, htab, -⟩ := hk.boot pd hpd h256 hp
      rw [htab]
      exact h.boot i
  · rfl

theorem KernelMap.same (hk : m.KernelMap) (h : SameKernel m m') : m'.KernelMap := by
  refine ⟨fun pd hpd h256 hp => ?_, fun pd hpd h256 hu => ?_, ?_, fun k hown => ?_⟩
  · rw [h.kernel.dir] at hp ⊢
    obtain ⟨i, htab, hident⟩ := hk.boot pd hpd h256 hp
    exact ⟨i, htab, by simpa only [h.boot i] using hident⟩
  · rw [h.kernel.dir] at hu
    exact hk.user pd hpd h256 hu
  · obtain ⟨k, f, hdir, hown, hf, hrest⟩ := hk.scratch
    refine ⟨k, f, by rw [h.kernel.dir, hdir], (h.kernel.owner k).2 hown, ?_⟩
    rw [h.kernel.tab k hown]
    exact ⟨hf, hrest⟩
  · rw [h.kernel.dir]
    exact hk.tables k ((h.kernel.owner k).1 hown)

theorem frameAt_none {page : ℕ} (h : page < 8192 ∨ 16384 ≤ page) : frameAt page = none := by
  rw [frameAt, dif_neg]
  simp only [poolStart]
  omega

/-- outside the identity map of the pool itself, a boot slot shows no pool frame -/
theorem KernelMap.clean (hk : m.KernelMap) (hpd : pd < pageEntries) (h256 : pd ≠ 256) (hout : pd < 8 ∨ 16 ≤ pd)
    (hj : j < pageEntries) : (m.copied .kernel pd j).frame = none := by
  simp only [Paging.copied]
  split_ifs with hp
  · obtain ⟨i, htab, hident⟩ := hk.boot pd hpd h256 hp
    rw [htab, Pte.frame]
    split_ifs with he
    · rw [hident j hj he]
      simp only [pageEntries] at hj
      exact frameAt_none (by omega)
    · rfl
  · simp [Pte.zero, Pte.frame]

/-- slot 256 shows the kernel's scratch page and no other pool frame -/
theorem KernelMap.copied_scratch (hk : m.KernelMap) (hj : j < pageEntries)
    (hf : (m.copied .kernel 256 j).frame ≠ none) : j = 0 := by
  obtain ⟨k, f, hdir, -, -, hrest⟩ := hk.scratch
  by_contra hne
  simp only [Paging.copied, hdir, if_true] at hf
  exact hf (hrest j hj hne)

/-- no directory but the kernel's owns a table that a kernel slot shows -/
theorem KernelMap.not_ownsSlot (hk : m.KernelMap) (hd : d ≠ .kernel) (hpd : pd < pageEntries)
    (hslot : m.dir d pd = m.dir .kernel pd) : ¬ m.OwnsSlot d pd := by
  rintro ⟨hp, k, htab, hown⟩
  rw [hslot] at hp htab
  by_cases h256 : pd = 256
  · subst h256
    obtain ⟨k', f, hdir, hown', -, -⟩ := hk.scratch
    rw [hdir] at htab
    rw [← TableRef.priv.inj htab] at hown
    exact hd (Option.some.inj (hown.symm.trans hown'))
  · obtain ⟨i, hboot, -⟩ := hk.boot pd hpd h256 hp
    rw [hboot] at htab
    cases htab

/-! ## Private slots -/

/-- slot `pd` of `d` after private pages have been mapped at its entries `idx 0`, ..., `idx (p - 1)`: the kernel's slot
if there are none, and else a table of `d`'s own with those pages and the kernel's entries everywhere else -/
structure Filled (m : Paging) (d : DirRef) (pd : ℕ) (idx : ℕ → ℕ) (p : ℕ) : Prop where
  shown : p = 0 → m.dir d pd = m.dir .kernel pd
  table : 0 < p → ∃ k, m.dir d pd = ⟨.priv k, true, true⟩ ∧ m.owner k = some d ∧
    (∀ q < p, ∃ f, m.tab (.priv k) (idx q) = ⟨pageOf f, true, true⟩) ∧
    ∀ j, (∀ q < p, j ≠ idx q) → m.tab (.priv k) j = m.copied .kernel pd j

theorem Filled.same (h : m.Filled d pd idx p) (hk : m.KernelMap) (hpd : pd < pageEntries) (hd : Undisturbed m m' d)
    (hsame : SameKernel m m') : m'.Filled d pd idx p := by
  refine ⟨fun hp => ?_, fun hp => ?_⟩
  · rw [hd.dir, hsame.kernel.dir]
    exact h.shown hp
  · obtain ⟨k, hdir, hown, hpages, hrest⟩ := h.table hp
    refine ⟨k, by rw [hd.dir, hdir], (hd.owner k).2 hown, ?_⟩
    rw [hd.tab k hown, hsame.copied hk hpd]
    exact ⟨hpages, hrest⟩

/-- the next page of a slot may be mapped: what the kernel shows there is a pool frame at most where that page goes -/
theorem Filled.mappable (h : m.Filled d (pdIndex v) idx p) (hk : m.KernelMap) (hd : d ≠ .kernel)
    (hpt : ptIndex v = idx p) (hnew : ∀ q < p, idx p ≠ idx q)
    (hclean : ∀ j < pageEntries, (m.copied .kernel (pdIndex v) j).frame ≠ none → p = 0 ∧ j = idx p)
    (hfree : ∃ f, m.bitmap f = false) : m.Mappable d v := by
  have hpd := pdIndex_lt v
  rcases Nat.eq_zero_or_pos p with rfl | hp
  · have hslot := h.shown rfl
    refine ⟨fun hown => absurd hown (hk.not_ownsSlot hd hpd hslot), fun _ hpres j hj hf => ?_⟩
    rw [hslot] at hpres hf
    refine ⟨?_, hfree⟩
    rw [hpt]
    refine (hclean j hj ?_).2
    rwa [Paging.copied, if_pos hpres]
  · obtain ⟨k, hdir, hown, -, hrest⟩ := h.table hp
    refine ⟨fun _ => ?_, fun hnot => absurd ⟨by rw [hdir], k, by rw [hdir], hown⟩ hnot⟩
    rw [hdir, hpt, hrest (idx p) hnew]
    by_contra hf
    exact hp.ne' (hclean (idx p) (hpt ▸ ptIndex_lt v) hf).1

/-- **Mapping the next page of a slot.** -/
theorem Filled.map (h : m.Filled d (pdIndex v) idx p) (hk : m.KernelMap) (hd : d ≠ .kernel)
    (hpt : ptIndex v = idx p) (hnew : ∀ q < p, idx p ≠ idx q) (hm : Maps m d v (some f) m') :
    m'.Filled d (pdIndex v) idx (p + 1) := by
  have hpd := pdIndex_lt v
  have hcopy := (hm.local.sameKernel hd).copied hk hpd
  refine ⟨by simp, fun _ => ?_⟩
  cases hm with
  | reused k _ hpres htab hown =>
    -- the slot is private already: it has pages, and its table is the one recorded
    have hp : 0 < p := Nat.pos_of_ne_zero fun hp =>
      hk.not_ownsSlot hd hpd (h.shown hp) ⟨hpres, k, htab, hown⟩
    obtain ⟨l, hdir, hown', hpages, hrest⟩ := h.table hp
    obtain rfl : l = k := by
      rw [hdir] at htab
      exact TableRef.priv.inj htab
    refine ⟨l, hdir, hown', fun q hq => ?_, fun j hj => ?_⟩
    · rcases Nat.lt_succ_iff_lt_or_eq.1 hq with hq | rfl
      · obtain ⟨g, hg⟩ := hpages q hq
        exact ⟨g, by simp [place, hpt, (hnew q hq).symm, hg]⟩
      · exact ⟨f, by simp [place, hpt]⟩
    · have hjp : j ≠ ptIndex v := hpt ▸ hj p (Nat.lt_succ_self p)
      rw [hcopy, ← hrest j fun q hq => hj q (Nat.lt_succ_of_lt hq)]
      simp [place, hjp]
  | fresh k _ hown hfree =>
    have hp : p = 0 := by
      by_contra hp
      obtain ⟨l, hdir, hown', -⟩ := h.table (Nat.pos_of_ne_zero hp)
      exact hown ⟨by rw [hdir], l, by rw [hdir], hown'⟩
    subst hp
    refine ⟨k, by simp [privatise], by simp, fun q hq => ?_, fun j hj => ?_⟩
    · obtain rfl : q = 0 := by omega
      exact ⟨f, by simp [place, hpt]⟩
    · have hjp : j ≠ ptIndex v := hpt ▸ hj 0 (by omega)
      rw [hcopy]
      simp [place, privatise, hjp, Paging.copied, h.shown rfl]

/-! ## Private spaces -/

/-- directory `d` is private in slot `pd` with `p` pages at the entries `idx`, in slot 256 with `q` scratch pages, and
shows the kernel's slots elsewhere, but for slot 0, which may be shared -/
structure Private (m : Paging) (d : DirRef) (pd : ℕ) (idx : ℕ → ℕ) (p q : ℕ) : Prop where
  main : m.Filled d pd idx p
  scratch : m.Filled d 256 (fun _ => 0) q
  tables : ∀ k, m.owner k = some d →
    0 < p ∧ (m.dir d pd).table = .priv k ∨ 0 < q ∧ (m.dir d 256).table = .priv k
  rest : ∀ x, x ≠ 0 → x ≠ pd → x ≠ 256 → m.dir d x = m.dir .kernel x

/-- the slots and entries the kernel uses for private pages: an app's code and stack in slot 0, a child's stack in
slot 320 -/
structure Fits (pd : ℕ) (idx : ℕ → ℕ) (p : ℕ) : Prop where
  slot : pd = 0 ∨ pd = 320
  entry : ∀ x < p, idx x < 4 ∨ 512 ≤ idx x ∧ idx x < 532

theorem Fits.lt (h : Fits pd idx p) : pd < pageEntries := by
  rcases h.slot with rfl | rfl <;> decide

theorem Private.same {q : ℕ} (h : m.Private d pd idx p q) (hk : m.KernelMap) (hpd : pd < pageEntries)
    (hd : Undisturbed m m' d) (hsame : SameKernel m m') : m'.Private d pd idx p q := by
  refine ⟨h.main.same hk hpd hd hsame, h.scratch.same hk (by decide) hd hsame, fun k hk => ?_, fun x h0 hx h256 => ?_⟩
  · rw [hd.dir]
    exact h.tables k ((hd.owner k).1 hk)
  · rw [hd.dir, hsame.kernel.dir]
    exact h.rest x h0 hx h256

/-- the state of the pools: every directory in use is a private space, every marked frame is shown by an owned table,
and the kernel's part is that of `m₀` -/
structure MemInv (m₀ m : Paging) : Prop where
  owned : m.Owned
  kernel : m.KernelMap
  same : SameKernel m₀ m
  exact : ∀ f, m.bitmap f = true → ∃ k j, m.Entry k j f
  unused : ∀ i, m.dirUsed i = false → ∀ k, m.owner k ≠ some (.task i)
  used : ∀ i, m.dirUsed i = true → ∃ pd idx p q, Fits pd idx p ∧ m.Private (.task i) pd idx p q

/-- the space of the owner of a table -/
theorem MemInv.space (h : MemInv m₀ m) (hk : m.owner k = some (.task i)) :
    ∃ pd idx p q, Fits pd idx p ∧ m.Private (.task i) pd idx p q := by
  apply h.used i
  by_contra hu
  exact h.unused i (by simpa using hu) k hk

/-! ## There is always room -/

/-- a table is told by its owner and whether it is the scratch slot's -/
def tableTag (m : Paging) (k : Fin 20) : Option (Fin 8 × Bool) :=
  match m.owner k with
  | some (.task i) => some (i, (m.dir (.task i) 256).table = .priv k)
  | _ => none

/-- **The private-table pool is never empty**: eight directories with two tables and the kernel with one are 17. -/
theorem MemInv.exists_table (h : MemInv m₀ m) : ∃ k, m.owner k = none := by
  by_contra hall
  rw [not_exists] at hall
  have hinj : Function.Injective m.tableTag := by
    intro k l he
    cases hk : m.owner k with
    | none => exact absurd hk (hall k)
    | some d =>
      cases hl : m.owner l with
      | none => exact absurd hl (hall l)
      | some d' =>
        cases d with
        | kernel =>
          cases d' with
          | kernel => exact TableRef.priv.inj ((h.kernel.tables k hk).symm.trans (h.kernel.tables l hl))
          | task j => simp [tableTag, hk, hl] at he
        | task i =>
          cases d' with
          | kernel => simp [tableTag, hk, hl] at he
          | task j =>
            simp only [tableTag, hk, hl, Option.some.injEq, Prod.mk.injEq] at he
            obtain ⟨rfl, he⟩ := he
            obtain ⟨pd, idx, p, q, -, hp⟩ := h.space hk
            rcases hp.tables k hk with ⟨-, hkt⟩ | ⟨-, hkt⟩ <;> rcases hp.tables l hl with ⟨-, hlt⟩ | ⟨-, hlt⟩
            · exact TableRef.priv.inj (hkt.symm.trans hlt)
            · have : (m.dir (.task i) 256).table = .priv k := by simpa [hlt] using he
              exact TableRef.priv.inj (this.symm.trans hlt)
            · have : (m.dir (.task i) 256).table = .priv l := by simpa [hkt] using he
              exact TableRef.priv.inj (hkt.symm.trans this)
            · exact TableRef.priv.inj (hkt.symm.trans hlt)
  have := Fintype.card_le_of_injective m.tableTag hinj
  simp at this

/-- a pool frame is only ever shown at the entries of `Fits` -/
theorem MemInv.entry_index (h : MemInv m₀ m) (he : m.Entry k j f) :
    j < 4 ∨ 512 ≤ j ∧ j < 532 := by
  obtain ⟨hown, hj, hf⟩ := he
  cases hk : m.owner k with
  | none => exact absurd hk hown
  | some d =>
    cases d with
    | kernel =>
      have htab := h.kernel.tables k hk
      obtain ⟨l, g, hdir, -, -, hrest⟩ := h.kernel.scratch
      obtain rfl : l = k := by
        rw [hdir] at htab
        exact TableRef.priv.inj htab
      by_contra hne
      simp [hrest j hj (by omega)] at hf
    | task i =>
      obtain ⟨pd, idx, p, q, hfit, hp⟩ := h.space hk
      rcases hp.tables k hk with ⟨hpos, htab⟩ | ⟨hpos, htab⟩
      · obtain ⟨l, hdir, -, -, hrest⟩ := hp.main.table hpos
        obtain rfl : l = k := by
          rw [hdir] at htab
          exact TableRef.priv.inj htab
        by_cases hx : ∃ x < p, j = idx x
        · obtain ⟨x, hx, rfl⟩ := hx
          exact hfit.entry x hx
        · push Not at hx
          rw [hrest j hx, h.kernel.clean hfit.lt (by rcases hfit.slot with rfl | rfl <;> decide)
            (by rcases hfit.slot with rfl | rfl <;> decide) hj] at hf
          cases hf
      · obtain ⟨l, hdir, -, -, hrest⟩ := hp.scratch.table hpos
        obtain rfl : l = k := by
          rw [hdir] at htab
          exact TableRef.priv.inj htab
        by_cases h0 : j = 0
        · omega
        · rw [hrest j fun _ _ => h0] at hf
          exact absurd (h.kernel.copied_scratch hj (by simp [hf])) h0

/-- **The frame pool is never empty**: 20 tables with at most 24 private pages are 480 frames. -/
theorem MemInv.exists_frame (h : MemInv m₀ m) : ∃ f, m.bitmap f = false := by
  by_contra hall
  simp only [not_exists, Bool.not_eq_false] at hall
  choose k j he using fun f => h.exact f (hall f)
  have hinj : Function.Injective fun f => (k f, j f) := by
    intro f g hfg
    obtain ⟨hk, hj⟩ := Prod.mk.inj hfg
    have hf := (he f).2.2
    rw [hk, hj, (he g).2.2] at hf
    exact (Option.some.inj hf).symm
  have hsub : ∀ f ∈ Finset.univ, (k f, j f) ∈ (Finset.univ : Finset (Fin 20)) ×ˢ (Finset.range 4 ∪ Finset.Ico 512 532) := by
    intro f _
    simpa using h.entry_index (he f)
  have := Finset.card_le_card_of_injOn _ hsub hinj.injOn
  rw [Finset.card_univ, Fintype.card_fin, Finset.card_product] at this
  have hcard : (Finset.range 4 ∪ Finset.Ico 512 532).card = 24 := by decide
  rw [hcard, Finset.card_univ, Fintype.card_fin] at this
  omega

/-! ## Building and releasing a space -/

/-- only directory `i` and the pools have changed -/
theorem MemInv.rebuild (h : MemInv m₀ m) (hl : Local (.task i) m m') (howned : m'.Owned)
    (hexact : ∀ f, m'.bitmap f = true → ∃ k j, m'.Entry k j f) (hothers : ∀ j ≠ i, m'.dirUsed j = m.dirUsed j)
    (hunused : m'.dirUsed i = false → ∀ k, m'.owner k ≠ some (.task i))
    (hused : m'.dirUsed i = true → ∃ pd idx p q, Fits pd idx p ∧ m'.Private (.task i) pd idx p q) : MemInv m₀ m' := by
  have hsame := hl.sameKernel (by simp)
  refine ⟨howned, h.kernel.same hsame, h.same.trans hsame, hexact, fun j hj k => ?_, fun j hj => ?_⟩
  · by_cases hji : j = i
    · subst hji
      exact hunused hj k
    · rw [hothers j hji] at hj
      exact mt ((hl.others (.task j) (by simpa using hji)).owner k).1 (h.unused j hj k)
  · by_cases hji : j = i
    · subst hji
      exact hused hj
    · rw [hothers j hji] at hj
      obtain ⟨pd, idx, p, q, hfit, hp⟩ := h.used j hj
      exact ⟨pd, idx, p, q, hfit, hp.same h.kernel hfit.lt (hl.others _ (by simpa using hji)) hsame⟩

theorem MemInv.ownersInUse (h : MemInv m₀ m) : m.OwnersInUse := by
  intro k d hk
  cases d with
  | kernel => trivial
  | task i =>
    by_contra hu
    exact h.unused i (by simpa [InUse] using hu) k hk

/-- directory slot `i` handed out as a copy of the kernel's -/
def cloneAt (m : Paging) (i : Fin 8) : Paging :=
  { m with dirUsed := Function.update m.dirUsed i true, dir := Function.update m.dir (.task i) (m.dir .kernel) }

/-- `paging_clone_kernel_directory` with a directory to spare -/
theorem MemInv.clone (h : MemInv m₀ m) (hi : firstFree m.dirUsed = some i) :
    m.cloneKernelDirectory = (some (.task i), m.cloneAt i) ∧ MemInv m₀ (m.cloneAt i) ∧ Local (.task i) m (m.cloneAt i) ∧
      ∀ pd idx, (m.cloneAt i).Private (.task i) pd idx 0 0 := by
  have hfree := firstFree_free hi
  have heq : m.cloneKernelDirectory = (some (.task i), m.cloneAt i) := cloneKernelDirectory_some hi
  have howned := h.owned.clone h.ownersInUse
  rw [heq] at howned
  have hl : Local (.task i) m (m.cloneAt i) :=
    ⟨fun d' hd' => ⟨by simp [cloneAt, hd'], fun _ => Iff.rfl, fun _ _ => rfl⟩, fun _ => rfl⟩
  have hslot : ∀ x, (m.cloneAt i).dir (.task i) x = (m.cloneAt i).dir .kernel x := by simp [cloneAt]
  have hprivate : ∀ pd idx, (m.cloneAt i).Private (.task i) pd idx 0 0 := fun pd idx =>
    ⟨⟨fun _ => hslot pd, fun hp => absurd hp (by simp)⟩, ⟨fun _ => hslot 256, fun hq => absurd hq (by simp)⟩,
      fun k hk => absurd hk (h.unused i hfree k), fun x _ _ _ => hslot x⟩
  refine ⟨heq, ?_, hl, hprivate⟩
  refine h.rebuild hl howned h.exact (fun j hj => by simp [cloneAt, hj]) (fun hu => by simp [cloneAt] at hu) fun _ => ?_
  exact ⟨0, id, 0, 0, ⟨.inl rfl, by simp⟩, hprivate 0 id⟩

/-- `paging_share_pde` into slot 0 of a space with no page of its own yet -/
theorem MemInv.share (h : MemInv m₀ m) (src : DirRef) (hv : pdIndex v = 0) (hp : m.Private (.task i) 320 idx 0 0) :
    MemInv m₀ (m.sharePde (.task i) src v) ∧ Local (.task i) m (m.sharePde (.task i) src v) ∧
      (m.sharePde (.task i) src v).Private (.task i) 320 idx 0 0 := by
  have hl : Local (.task i) m (m.sharePde (.task i) src v) := local_share
  have hnone : ∀ k, m.owner k ≠ some (.task i) := fun k hk => by simpa using hp.tables k hk
  have hslot : ∀ x, x ≠ 0 → (m.sharePde (.task i) src v).dir (.task i) x = m.dir (.task i) x := by
    intro x hx
    simp [sharePde, setPde, hv, hx]
  have hkernel : (m.sharePde (.task i) src v).dir .kernel = m.dir .kernel := (hl.others .kernel (by simp)).dir
  have hprivate : (m.sharePde (.task i) src v).Private (.task i) 320 idx 0 0 := by
    refine ⟨⟨fun _ => ?_, fun h0 => absurd h0 (by simp)⟩, ⟨fun _ => ?_, fun h0 => absurd h0 (by simp)⟩,
      fun k hk => absurd hk (hnone k), ?_⟩
    · rw [hslot 320 (by simp), hkernel]
      exact hp.main.shown rfl
    · rw [hslot 256 (by simp), hkernel]
      exact hp.scratch.shown rfl
    · intro x h0 h320 h256
      rw [hslot x h0, hkernel]
      exact hp.rest x h0 h320 h256
  refine ⟨?_, hl, hprivate⟩
  refine h.rebuild hl (h.owned.share fun hown => ?_) h.exact (fun _ _ => rfl) (fun _ => hnone) fun _ => ?_
  · obtain ⟨-, k, -, hk⟩ := hown
    exact hnone k hk
  · exact ⟨320, idx, 0, 0, ⟨.inr rfl, by simp⟩, hprivate⟩

/-- with room in both pools, mapping succeeds -/
theorem MemInv.map_some (h : MemInv m₀ m) (d : DirRef) (v : UInt32) :
    ∃ f m', m.mapPrivatePage d v = (some f, m') ∧ Maps m d v (some f) m' := by
  have hm := m.maps_mapPrivatePage d v
  obtain ⟨k, hk⟩ := h.exists_table
  obtain ⟨g, hg⟩ := h.exists_frame
  cases hr : m.mapPrivatePage d v with
  | mk r m' =>
    rw [hr] at hm
    dsimp only at hm
    cases r with
    | some f => exact ⟨f, m', rfl, hm⟩
    | none =>
      cases hm with
      | noTable _ hall => exact absurd hk (hall k)
      | noFrame _ hall | tableOnly _ _ _ hall => simp [hall g] at hg

theorem Maps.exact {r : Option Frame} (h : Maps m d v r m') (hmap : m.Mappable d v)
    (hexact : ∀ f, m.bitmap f = true → ∃ k j, m.Entry k j f) (f : Frame) (hf : m'.bitmap f = true) :
    ∃ k j, m'.Entry k j f := by
  obtain ⟨l, -, hentry⟩ := h.entry hmap
  rcases (h.bitmap f).1 hf with hf | hr
  · obtain ⟨k, j, he⟩ := hexact f hf
    exact ⟨k, j, (hentry k j f).2 (.inl he)⟩
  · exact ⟨l, ptIndex v, (hentry l _ f).2 (.inr ⟨rfl, rfl, hr⟩)⟩

theorem Maps.dirUsed (h : Maps m d v r m') : m'.dirUsed = m.dirUsed := by
  cases h <;> rfl

/-- only the mapped slot of the directory changes -/
theorem Maps.slot (h : Maps m d v r m') {x : ℕ} (hx : x ≠ pdIndex v) : m'.dir d x = m.dir d x := by
  cases h with
  | noTable | noFrame | reused => rfl
  | tableOnly | fresh => simp [privatise, hx]

/-- after a successful mapping the slot shows a table of the directory's own, and that is the only new one -/
theorem Maps.newTable (h : Maps m d v (some f) m') :
    ∃ k, (m'.dir d (pdIndex v)).table = .priv k ∧ m'.owner k = some d ∧ ∀ l, m'.owner l = some d → l = k ∨
      m.owner l = some d ∧ m'.tab (.priv l) = m.tab (.priv l) := by
  cases h with
  | reused k _ _ htab hown =>
    refine ⟨k, htab, hown, fun l hl => ?_⟩
    by_cases hlk : l = k
    · exact .inl hlk
    · exact .inr ⟨hl, by simp [place, hlk]⟩
  | fresh k _ _ hk =>
    refine ⟨k, by simp [privatise], by simp, fun l hl => ?_⟩
    by_cases hlk : l = k
    · exact .inl hlk
    · exact .inr ⟨by simpa [hlk] using hl, by simp [place, privatise, hlk]⟩

/-- **The next page of the main slot of a space.** -/
theorem MemInv.mapMain (h : MemInv m₀ m) (hu : m.dirUsed i = true) (hp : m.Private (.task i) (pdIndex v) idx p 0)
    (hfit : Fits (pdIndex v) idx (p + 1)) (hpt : ptIndex v = idx p) (hnew : ∀ q < p, idx p ≠ idx q) :
    ∃ f m', m.mapPrivatePage (.task i) v = (some f, m') ∧ MemInv m₀ m' ∧ Local (.task i) m m' ∧
      m'.dirUsed = m.dirUsed ∧ m'.Private (.task i) (pdIndex v) idx (p + 1) 0 ∧
      ∀ x, x ≠ pdIndex v → m'.dir (.task i) x = m.dir (.task i) x := by
  obtain ⟨f, m', heq, hm⟩ := h.map_some (.task i) v
  have hne : pdIndex v ≠ 256 := by rcases hfit.slot with he | he <;> simp [he]
  have hmap : m.Mappable (.task i) v := by
    refine hp.main.mappable h.kernel (by simp) hpt hnew (fun j hj hf => absurd ?_ hf) h.exists_frame
    exact h.kernel.clean hfit.lt hne (by rcases hfit.slot with he | he <;> simp [he]) hj
  have hl := hm.local
  have hkernel : m'.dir .kernel = m.dir .kernel := (hl.others .kernel (by simp)).dir
  have hprivate : m'.Private (.task i) (pdIndex v) idx (p + 1) 0 := by
    obtain ⟨k, htab, -, honly⟩ := hm.newTable
    refine ⟨hp.main.map h.kernel (by simp) hpt hnew hm, ⟨fun _ => ?_, fun h0 => absurd h0 (by simp)⟩, fun l hl => ?_,
      fun x h0 hx h256 => ?_⟩
    · rw [hm.slot (Ne.symm hne), hkernel]
      exact hp.scratch.shown rfl
    · refine .inl ⟨Nat.succ_pos p, ?_⟩
      rcases honly l hl with rfl | ⟨hold, -⟩
      · exact htab
      · -- a table it had before is the one its slot showed, and that one was kept
        obtain ⟨hpos, hshow⟩ := (hp.tables l hold).resolve_right (by simp)
        obtain ⟨k', hdir, hown, -⟩ := hp.main.table hpos
        cases hm with
        | reused => exact hshow
        | fresh _ _ hnot => exact absurd ⟨by rw [hdir], k', by rw [hdir], hown⟩ hnot
    · rw [hm.slot hx, hkernel]
      exact hp.rest x h0 hx h256
  refine ⟨f, m', heq, ?_, hl, hm.dirUsed, hprivate, fun x hx => hm.slot hx⟩
  refine h.rebuild hl (h.owned.map hm hmap) (hm.exact hmap h.exact) (fun j _ => by rw [hm.dirUsed]) (fun hf => ?_)
    fun _ => ?_
  · rw [hm.dirUsed, hu] at hf
    cases hf
  · exact ⟨_, idx, p + 1, 0, hfit, hprivate⟩

/-- **The scratch page of a space**, at TASK_PRIVATE_VADDR. -/
theorem MemInv.mapScratch (h : MemInv m₀ m) (hu : m.dirUsed i = true) (hp : m.Private (.task i) pd idx p 0)
    (hfit : Fits pd idx p) (hv : pdIndex v = 256) (hpt : ptIndex v = 0) :
    ∃ f m', m.mapPrivatePage (.task i) v = (some f, m') ∧ MemInv m₀ m' ∧ Local (.task i) m m' ∧
      m'.dirUsed = m.dirUsed ∧ m'.Private (.task i) pd idx p 1 ∧
      ∀ x, x ≠ 256 → m'.dir (.task i) x = m.dir (.task i) x := by
  obtain ⟨f, m', heq, hm⟩ := h.map_some (.task i) v
  have hne : pd ≠ pdIndex v := by
    rw [hv]
    rcases hfit.slot with he | he <;> simp [he]
  have hscratch : m.Filled (.task i) (pdIndex v) (fun _ => 0) 0 := by
    rw [hv]
    exact hp.scratch
  have hmap : m.Mappable (.task i) v := by
    refine hscratch.mappable h.kernel (by simp) hpt (by simp) (fun j hj hf => ⟨rfl, ?_⟩) h.exists_frame
    rw [hv] at hf
    exact h.kernel.copied_scratch hj hf
  have hl := hm.local
  have hsame := hl.sameKernel (by simp)
  have hkernel : m'.dir .kernel = m.dir .kernel := hsame.kernel.dir
  have hprivate : m'.Private (.task i) pd idx p 1 := by
    obtain ⟨k, htab, -, honly⟩ := hm.newTable
    refine ⟨⟨fun h0 => ?_, fun hpos => ?_⟩, ?_, fun l hl => ?_, fun x h0 hx h256 => ?_⟩
    · rw [hm.slot hne, hkernel]
      exact hp.main.shown h0
    · -- the table of the main slot is not the one that was taken from the pool
      obtain ⟨l, hdir, hown, hpages, hrest⟩ := hp.main.table hpos
      have hkeep : m'.owner l = some (.task i) ∧ m'.tab (.priv l) = m.tab (.priv l) := by
        cases hm with
        | reused k' _ hpres htab' hk' =>
          have hnot := h.kernel.not_ownsSlot (by simp) (pdIndex_lt v) (hscratch.shown rfl)
          exact absurd ⟨hpres, k', htab', hk'⟩ hnot
        | fresh k' _ _ hk' =>
          have hlk : l ≠ k' := fun he => by simp [he, hk'] at hown
          exact ⟨by simp [hlk, hown], by simp [place, privatise, hlk]⟩
      refine ⟨l, by rw [hm.slot hne, hdir], hkeep.1, ?_⟩
      rw [hkeep.2, hsame.copied h.kernel hfit.lt]
      exact ⟨hpages, hrest⟩
    · have := hscratch.map h.kernel (by simp) hpt (by simp) hm
      rwa [hv] at this
    · rcases honly l hl with rfl | ⟨hold, -⟩
      · exact .inr ⟨Nat.one_pos, hv ▸ htab⟩
      · obtain ⟨hpos, hshow⟩ := (hp.tables l hold).resolve_right (by simp)
        exact .inl ⟨hpos, by rw [hm.slot hne, hshow]⟩
    · rw [hm.slot (hv ▸ h256), hkernel]
      exact hp.rest x h0 hx h256
  refine ⟨f, m', heq, ?_, hl, hm.dirUsed, hprivate, fun x hx => hm.slot (hv ▸ hx)⟩
  refine h.rebuild hl (h.owned.map hm hmap) (hm.exact hmap h.exact) (fun j _ => by rw [hm.dirUsed]) (fun hf => ?_)
    fun _ => ?_
  · rw [hm.dirUsed, hu] at hf
    cases hf
  · exact ⟨pd, idx, p, 1, hfit, hprivate⟩

@[simp] theorem freeDirectory_owner : (m.freeDirectory d).owner = m.owner := by cases d <;> rfl

@[simp] theorem freeDirectory_bitmap : (m.freeDirectory d).bitmap = m.bitmap := by cases d <;> rfl

@[simp] theorem freeDirectory_dir : (m.freeDirectory d).dir = m.dir := by cases d <;> rfl

@[simp] theorem freeDirectory_tab : (m.freeDirectory d).tab = m.tab := by cases d <;> rfl

@[simp] theorem freeDirectory_entry : (m.freeDirectory d).Entry = m.Entry := by cases d <;> rfl

theorem freeDirectory_local (i : Fin 8) : Local (.task i) m (m.freeDirectory (.task i)) :=
  ⟨fun _ _ => ⟨rfl, fun _ => Iff.rfl, fun _ _ => rfl⟩, fun _ => rfl⟩

/-- **Releasing a space gives back everything it took.** -/
theorem MemInv.release (h : MemInv m₀ m) (i : Fin 8) :
    MemInv m₀ ((m.freePrivatePages (.task i)).freeDirectory (.task i)) ∧
      Local (.task i) m ((m.freePrivatePages (.task i)).freeDirectory (.task i)) ∧
      ((m.freePrivatePages (.task i)).freeDirectory (.task i)).dirUsed = Function.update m.dirUsed i false := by
  have hfree := m.freePrivatePages_freed (.task i)
  have hl : Local (.task i) m ((m.freePrivatePages (.task i)).freeDirectory (.task i)) :=
    (local_freePages m (.task i) h.owned).trans (freeDirectory_local i)
  refine ⟨?_, hl, by simp [freeDirectory, hfree.dirUsed]⟩
  refine h.rebuild hl h.owned.freePages.freeDirectory (fun f hf => ?_) (fun j hj => ?_) (fun _ k => ?_) fun hu => ?_
  · rw [freeDirectory_bitmap] at hf
    obtain ⟨hf, hno⟩ := (h.owned.free_bitmap f).1 hf
    obtain ⟨k, j, he⟩ := h.exact f hf
    refine ⟨k, j, ?_⟩
    rw [freeDirectory_entry]
    exact h.owned.free_entry.2 ⟨fun hk => hno ⟨k, j, hk, he⟩, he⟩
  · simp [freeDirectory, hfree.dirUsed, hj]
  · rw [freeDirectory_owner, h.owned.free_owner]
    split_ifs with hk
    · simp
    · exact hk
  · simp [freeDirectory] at hu

end GannetOS.Mem.Paging
