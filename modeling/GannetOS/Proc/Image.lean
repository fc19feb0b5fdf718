/-
What a launch puts in memory: the pages that `try_exec` copies out of exec_buf (kernel/proc/loader.c).

A launch maps the pages of its program one by one and copies a chunk of exec_buf into each; a tick may fall between any
two, and other tasks may then come and go. `Copied` says what the pages mapped so far hold. Mapping a page writes to no
frame that is in use and freeing writes to none at all (`KeepsBytes`), so the others leave it alone (`Copied.keep`), and
the launch adds to it (`Copied.map`).

- `built_shows_program`: in every state of every run from boot in which task 0 does not exit, once the code pages of a
  launch are mapped, user code of its directory reads the program at APP_LOAD_ADDR, from private frames;
- `launch_builds`: a launch by task 0 that is not preempted gets there.

What a program writes once it runs is no part of this: the launch is then past its building phase.
-/
import GannetOS.Proc.Isolation

namespace GannetOS.Mem.Paging

open GannetOS.Proc

variable {m m' m'' : Paging} {d : DirRef} {v : UInt32} {f : Frame}

/-! ## The bytes of frames in use -/

/-- the frames in use stay in use and keep their bytes -/
def KeepsBytes (m m' : Paging) : Prop := ∀ f, m.bitmap f = true → m'.bitmap f = true ∧ m'.ram f = m.ram f

theorem KeepsBytes.refl (m : Paging) : KeepsBytes m m := fun _ hf => ⟨hf, rfl⟩

theorem KeepsBytes.trans (h : KeepsBytes m m') (h' : KeepsBytes m' m'') : KeepsBytes m m'' := by
  intro f hf
  obtain ⟨hf', hram⟩ := h f hf
  obtain ⟨hf'', hram'⟩ := h' f hf'
  exact ⟨hf'', hram'.trans hram⟩

/-- a page that is mapped takes a frame that was free -/
theorem Maps.keepsBytes {r : Option Frame} (h : Maps m d v r m') : KeepsBytes m m' := by
  intro f hf
  refine ⟨(h.bitmap f).2 (.inl hf), ?_⟩
  cases h with
  | noTable | noFrame | tableOnly => rfl
  | reused k g _ _ _ hg | fresh k g _ _ hg =>
    have hne : f ≠ g := by
      rintro rfl
      rw [hf] at hg
      cases hg
    exact Function.update_of_ne hne _ _

theorem keepsBytes_mapPages (vs : List UInt32) (m : Paging) (d : DirRef) : KeepsBytes m (m.mapPages d vs).2 := by
  induction vs generalizing m with
  | nil => exact KeepsBytes.refl m
  | cons v vs ih =>
    have hmaps := m.maps_mapPrivatePage d v
    rw [mapPages]
    cases hv : m.mapPrivatePage d v with
    | mk r m' =>
      rw [hv] at hmaps
      cases r with
      | none => exact hmaps.keepsBytes
      | some f => exact hmaps.keepsBytes.trans (ih m')

theorem keepsBytes_newDirectory (m : Paging) (share : Option DirRef) (vs : List UInt32) :
    KeepsBytes m (m.newDirectory share vs).2 := by
  have hclone : KeepsBytes m m.cloneKernelDirectory.2 := by
    unfold cloneKernelDirectory
    split <;> exact KeepsBytes.refl m
  unfold newDirectory
  cases hc : m.cloneKernelDirectory with
  | mk r m₁ =>
    rw [hc] at hclone
    cases r with
    | none => exact hclone
    | some d =>
      dsimp only
      have hend {m₂ m₃ : Paging} {ok : Bool} (hm₂ : KeepsBytes m m₂) (hp : m₂.mapPages d vs = (ok, m₃)) :
          KeepsBytes m m₃ := by
        have hpages := hm₂.trans (keepsBytes_mapPages vs m₂ d)
        rwa [hp] at hpages
      cases share with
      | none => split <;> exact hend hclone ‹_›
      | some src =>
        have hshare : KeepsBytes m (m₁.sharePde d src appLoadAddr) := hclone
        split <;> exact hend hshare ‹_›

theorem freeDirectory_ram (m : Paging) (d : DirRef) : (m.freeDirectory d).ram = m.ram := by cases d <;> rfl

/-- a directory that is given back leaves its bytes where they are -/
theorem release_ram (m : Paging) (d : DirRef) : (m.release d).ram = m.ram := by
  rw [release, freeDirectory_ram]
  exact (m.freePrivatePages_freed d).ram

/-- where the page that was mapped is shown -/
theorem Maps.shows (h : Maps m d v (some f) m') : ∃ k, (m'.dir d (pdIndex v)).table = .priv k ∧
    m'.tab (.priv k) (ptIndex v) = ⟨pageOf f, true, true⟩ := by
  cases h with
  | reused k _ _ htab => exact ⟨k, htab, by simp [place]⟩
  | fresh k => exact ⟨k, by simp [privatise], by simp [place]⟩

/-- a slot that is private already keeps its table and the table's other entries -/
theorem Maps.slot_kept {r : Option Frame} (h : Maps m d v r m') {k : Fin 20}
    (hdir : m.dir d (pdIndex v) = ⟨.priv k, true, true⟩) (hown : m.owner k = some d) :
    m'.dir d (pdIndex v) = ⟨.priv k, true, true⟩ ∧ m'.owner k = some d ∧
      ∀ j, j ≠ ptIndex v → m'.tab (.priv k) j = m.tab (.priv k) j := by
  have hslot : m.OwnsSlot d (pdIndex v) := ⟨by rw [hdir], k, by rw [hdir], hown⟩
  cases h with
  | noTable hnot | tableOnly _ hnot | fresh _ _ hnot => exact absurd hslot hnot
  | noFrame => exact ⟨hdir, hown, fun _ _ => rfl⟩
  | reused l g _ htab =>
    rw [hdir] at htab
    obtain rfl : k = l := TableRef.priv.inj htab
    refine ⟨hdir, hown, fun j hj => ?_⟩
    simp [place, Function.update_of_ne hj]

end GannetOS.Mem.Paging

namespace GannetOS.Proc

open GannetOS.Core GannetOS.Mem GannetOS.Mem.Paging

/-! ## The pages of a launch -/

/-- the bytes of the q-th code page -/
def Blob.chunk (b : Blob) (q : ℕ) : ℕ := min 4096 (b.memSize - q * 4096)

/-- each of the first `p` pages that is a code page is private to `d` and holds its part of the program -/
def Copied (m : Paging) (d : DirRef) (b : Blob) (p : ℕ) : Prop :=
  ∀ q < p, q < b.codePages → ∃ k f, m.dir d 0 = ⟨.priv k, true, true⟩ ∧ m.owner k = some d ∧
    m.tab (.priv k) (b.index q) = ⟨pageOf f, true, true⟩ ∧ ∀ i < b.chunk q, m.ram f i = b.bytes (q * 4096 + i)

section
variable {m m' : Paging} {d : DirRef} {b : Blob} {p : ℕ}

theorem Blob.index_lt (b : Blob) {q : ℕ} (hq : q < b.pages) : b.index q < pageEntries := by
  rw [← (b.pageVaddr_index hq).2]
  exact ptIndex_lt _

theorem entry_of_code {q : ℕ} (hq : q < b.codePages) {k : Fin 20} {f : Frame} (hown : m.owner k = some d)
    (htab : m.tab (.priv k) (b.index q) = ⟨pageOf f, true, true⟩) : m.Entry k (b.index q) f := by
  refine ⟨by rw [hown]; simp, b.index_lt (Nat.lt_of_lt_of_le hq (Nat.le_add_right _ 4)), ?_⟩
  rw [htab]
  exact frame_pageOf f true

/-- **What happens elsewhere leaves the copied pages alone.** -/
theorem Copied.keep (h : Copied m d b p) (howned : m.Owned) (hd : Undisturbed m m' d)
    (hram : ∀ f, m.bitmap f = true → m'.ram f = m.ram f) : Copied m' d b p := by
  intro q hq hcode
  obtain ⟨k, f, hdir, hown, htab, hbytes⟩ := h q hq hcode
  have hmarked := howned.marked k _ f (entry_of_code hcode hown htab)
  refine ⟨k, f, by rw [hd.dir, hdir], (hd.owner k).2 hown, by rw [hd.tab k hown, htab], fun i hi => ?_⟩
  rw [hram f hmarked]
  exact hbytes i hi

theorem copyPage_ram_of_ne {f g : Frame} (hne : g ≠ f) (b : Blob) (p : ℕ) (m : Paging) :
    (b.copyPage p f m).ram g = m.ram g := by
  unfold Blob.copyPage
  split_ifs
  · exact Function.update_of_ne hne _ _
  · rfl

theorem copyPage_ram {f : Frame} (hcode : p < b.codePages) {i : ℕ} (hi : i < b.chunk p) (m : Paging) :
    (b.copyPage p f m).ram f i = b.bytes (p * 4096 + i) := by
  rw [Blob.copyPage, if_pos hcode]
  dsimp only
  rw [Function.update_self]
  exact if_pos hi

theorem copyPage_tables (b : Blob) (p : ℕ) (f : Frame) (m : Paging) :
    (b.copyPage p f m).dir = m.dir ∧ (b.copyPage p f m).owner = m.owner ∧ (b.copyPage p f m).tab = m.tab := by
  unfold Blob.copyPage
  split_ifs <;> exact ⟨rfl, rfl, rfl⟩

/-- **The next page of a launch**, mapped and filled. -/
theorem Copied.map {f : Frame} (h : Copied m d b p) (howned : m.Owned) (hp : p < b.pages)
    (hm : Maps m d (b.pageVaddr p) (some f) m') (hfilled : m'.Filled d 0 b.index (p + 1)) :
    Copied (b.copyPage p f m') d b (p + 1) := by
  obtain ⟨hpd, hpt⟩ := b.pageVaddr_index hp
  obtain ⟨hdir', hown', htab'⟩ := copyPage_tables b p f m'
  intro q hq hcode
  rw [hdir', hown', htab']
  rcases Nat.lt_succ_iff_lt_or_eq.1 hq with hlt | rfl
  · -- an earlier page: the slot is private, and its frame is not the one that was free
    obtain ⟨k, g, hdir, hown, htab, hbytes⟩ := h q hlt hcode
    have hmarked := howned.marked k _ g (entry_of_code hcode hown htab)
    rw [← hpd] at hdir
    obtain ⟨hkept, hkown, hentries⟩ := hm.slot_kept hdir hown
    have hindex : b.index q ≠ ptIndex (b.pageVaddr p) := by
      rw [hpt]
      exact fun he => hlt.ne (b.index_injective he)
    have hne : g ≠ f := by
      rintro rfl
      rw [hm.free g rfl] at hmarked
      cases hmarked
    refine ⟨k, g, by rw [← hpd, hkept], hkown, by rw [hentries _ hindex, htab], fun i hi => ?_⟩
    rw [copyPage_ram_of_ne hne, (hm.keepsBytes g hmarked).2]
    exact hbytes i hi
  · -- the page itself
    obtain ⟨k, hdir, hown, -⟩ := hfilled.table (Nat.succ_pos q)
    obtain ⟨l, htable, hentry⟩ := hm.shows
    rw [hpd, hdir] at htable
    obtain rfl : k = l := TableRef.priv.inj htable
    rw [hpt] at hentry
    exact ⟨k, f, hdir, hown, hentry, fun i hi => copyPage_ram hcode hi m'⟩

/-- the page of a byte of the program -/
theorem Blob.page_of (b : Blob) {i : ℕ} (hi : i < b.memSize) : i / 4096 < b.codePages ∧ i % 4096 < b.chunk (i / 4096) := by
  unfold codePages chunk
  omega

theorem code_address (b : Blob) {i : ℕ} (hi : i < b.memSize) :
    pdIndex (appLoadAddr + UInt32.ofNat i) = 0 ∧ ptIndex (appLoadAddr + UInt32.ofNat i) = b.index (i / 4096) := by
  have hle := b.le
  have hv : (appLoadAddr + UInt32.ofNat i).toNat = 2097152 + i := by
    rw [UInt32.toNat_add, UInt32.toNat_ofNat', Nat.mod_eq_of_lt (by omega : i < 2 ^ 32)]
    show (2097152 + i) % 2 ^ 32 = 2097152 + i
    omega
  have hpage := (b.page_of hi).1
  rw [pdIndex, ptIndex, hv, Blob.index, if_pos hpage]
  omega

/-- **Where all code pages are copied, user code reads the program.** -/
theorem Copied.shows (h : Copied m d b p) (hp : b.codePages ≤ p) {i : ℕ} (hi : i < b.memSize) :
    ∃ f, m.Holds d f ∧ m.userFrame d (appLoadAddr + UInt32.ofNat i) = some f ∧ m.ram f (i % 4096) = b.bytes i := by
  obtain ⟨hpage, hchunk⟩ := b.page_of hi
  obtain ⟨hpd, hpt⟩ := code_address b hi
  obtain ⟨k, f, hdir, hown, htab, hbytes⟩ := h (i / 4096) (by omega) hpage
  refine ⟨f, ⟨k, _, hown, entry_of_code hpage hown htab⟩, userFrame_eq_some.2 ?_, ?_⟩
  · rw [hpd, hpt, hdir, htab]
    exact ⟨rfl, rfl, rfl, frame_pageOf f true⟩
  · rw [hbytes _ hchunk, Nat.div_add_mod' i 4096]

end

namespace Kernel

variable {s s' s₀ : Kernel} {op : Op} {r : Option ℤ}

/-! ## Over a run -/

/-- the launch in progress has copied the pages it has mapped -/
def ImageInv (s : Kernel) : Prop := ∀ d b p, s.exec = some (.build d b p) → Copied s.mem d b p

theorem ImageInv.of_same (h : s.ImageInv) (hmem : s'.mem = s.mem) (hexec : s'.exec = s.exec) : s'.ImageInv := by
  intro d b p he
  rw [hmem]
  exact h d b p (hexec ▸ he)

theorem ImageInv.of_holders (h : s.ImageInv) (hs : SameHolders s s') : s'.ImageInv := h.of_same hs.mem hs.exec

/-- outside the building phase there is nothing to say -/
theorem imageInv_of_not (h : ∀ d b p, s.exec ≠ some (.build d b p)) : s.ImageInv := fun d b p he => absurd he (h d b p)

theorem freeTask_mem (h : PoolInv s₀ s) {i : Fin 8} (h0 : (0 : Fin 8) ≠ i) : (s.freeTask i).mem = s.mem ∨
    ∃ k, (s.tasks i).cr3 = some (.task k) ∧ (s.freeTask i).mem = s.mem.release (.task k) := by
  by_cases hl : s.Live i
  · obtain ⟨k, hk, -⟩ := h.dirs i h0.symm hl
    exact .inr ⟨k, hk, by simp [freeTask, hk]⟩
  · exact .inl (by simp [freeTask, h.unused i hl])

/-- the end of a `task_reap` gives back another directory -/
theorem ImageInv.freeTask (hi : s.ImageInv) (h : PoolInv s₀ s) {i : Fin 8} (h0 : (0 : Fin 8) ≠ i) :
    (s.freeTask i).ImageInv := by
  intro d b p he
  have he : s.exec = some (.build d b p) := he
  rcases freeTask_mem h h0 with hmem | ⟨k, hk, hmem⟩
  · rw [hmem]
    exact hi d b p he
  · have hne : d ≠ .task k := fun hd => (h.building d b p he).1 i (hd ▸ hk)
    obtain ⟨-, hlocal, -⟩ := h.mem.release k
    rw [hmem]
    exact (hi d b p he).keep h.mem.owned (hlocal.others d hne) fun f _ => by rw [release_ram]

/-- **One operation keeps the copied pages.** -/
theorem ImageInv.moves (hi : s.ImageInv) (h : PoolInv s₀ s) (hm : Moves s op r s') : s'.ImageInv := by
  cases hm with
  | idle => exact hi
  | scheduled => exact hi.of_holders (sameHolders_schedule s)
  | exited => exact hi.of_holders (sameHolders_exit h.sched)
  | @created _ share vs _ _ i d m _ hc hslot hm =>
    obtain ⟨k, m', -, heq, ht, -⟩ := h.creates hslot hc
    have hbytes := keepsBytes_newDirectory s.mem share vs
    rw [heq] at hm hbytes
    obtain ⟨-, rfl⟩ := Prod.mk.inj hm
    intro d' b p he
    have he : s.exec = some (.build d' b p) := he
    obtain ⟨hne, -⟩ := h.building_taken ht he
    show Copied m' d' b p
    exact (hi d' b p he).keep h.mem.owned (ht.others.others d' hne) fun f hf => (hbytes f hf).2
  | leaked i m hc hslot hm =>
    obtain ⟨k, m', p, heq, -⟩ := h.creates hslot hc
    rw [heq] at hm
    cases (Prod.mk.inj hm).1
  | execFailed b m h0 hfree => exact imageInv_of_not (by simp [not_busy_exec hfree h0])
  | execStarted b d m =>
    intro d' b' p he
    obtain ⟨-, -, rfl⟩ := Exec.build.inj (Option.some.inj he)
    exact fun q hq => absurd hq (Nat.not_lt_zero q)
  | execMapped d b p f m he hp hm =>
    obtain ⟨f', m', heq, -, hinv⟩ := h.execMapped he.exec hp
    have hmaps := s.mem.maps_mapPrivatePage d (b.pageVaddr p)
    rw [heq] at hm hmaps
    obtain ⟨hf, rfl⟩ := Prod.mk.inj hm
    obtain rfl := Option.some.inj hf
    obtain ⟨-, k, rfl, -, -, hprivate⟩ := hinv.building d b (p + 1) rfl
    have hfilled : m'.Filled (.task k) 0 b.index (p + 1) := by
      obtain ⟨hdir, hown, htab⟩ := copyPage_tables b p f' m'
      obtain ⟨hshown, htable⟩ := hprivate.main
      simp only [hdir, hown, htab, Paging.copied] at hshown htable
      exact ⟨hshown, htable⟩
    intro d' b' p' he'
    obtain ⟨rfl, rfl, rfl⟩ := Exec.build.inj (Option.some.inj he')
    exact (hi _ b p he.exec).map h.mem.owned hp hmaps hfilled
  | execAborted | execCreated | execDone => exact imageInv_of_not (by simp [execAbort])
  | execReaps d b id he =>
    have hdone : ImageInv { s with exec := some (.reaping d b id) } := imageInv_of_not (by simp)
    exact hdone.of_holders (sameHolders_taskReap _ id)
  | reapCalled id => exact hi.of_holders (sameHolders_taskReap s id)
  | reapWaits | reapSkips => exact hi.of_same rfl rfl
  | reapsChild q rest hj =>
    have hset : (s.setReaps ({ q with j := q.j + 1, waiting := false } :: rest)).ImageInv := hi.of_same rfl rfl
    exact hset.of_holders (sameHolders_taskReap _ _)
  | reaped q rest _ hq =>
    have hqs := h.sched.frames s.current q (by simp [hq])
    exact (hi.freeTask h hqs.2.symm).of_same rfl rfl

theorem imageInv_run {l : Layout} {tr : List (Op × Option ℤ)} (hboot : boot l = some s₀)
    (h : Run step MainStays s₀ tr s) : PoolInv s₀ s ∧ s.ImageInv := by
  have hstep (s : Kernel) (op : Op) (hs : PoolInv s₀ s ∧ s.ImageInv) (hop : s.MainStays op) :
      PoolInv s₀ (s.step op).2 ∧ (s.step op).2.ImageInv :=
    ⟨hs.1.moves (s.step_moves op) hop, hs.2.moves hs.1 (s.step_moves op)⟩
  refine h.invariant hstep ⟨poolInv_boot hboot, imageInv_of_not fun d b p he => ?_⟩
  obtain ⟨m, rfl, -⟩ := boot_memory hboot
  cases he

/-- **A launch shows its program.** In every state of every run from boot in which task 0 does not exit: once the code
pages of a launch are mapped, every byte of the program is read at its place behind APP_LOAD_ADDR, from a frame that the
new directory holds and no other does. -/
theorem built_shows_program {l : Layout} {tr : List (Op × Option ℤ)} (hboot : boot l = some s₀)
    (h : Run step MainStays s₀ tr s) {d : DirRef} {b : Blob} {p : ℕ} (he : s.exec = some (.build d b p))
    (hp : b.codePages ≤ p) {i : ℕ} (hi : i < b.memSize) :
    ∃ f, (∀ d', s.mem.Holds d' f ↔ d' = d) ∧ s.mem.userFrame d (appLoadAddr + UInt32.ofNat i) = some f ∧
      s.mem.ram f (i % 4096) = b.bytes i := by
  obtain ⟨hpool, himage⟩ := imageInv_run hboot h
  obtain ⟨f, hholds, hframe, hbyte⟩ := (himage d b p he).shows hp hi
  refine ⟨f, fun d' => ⟨fun hd' => hpool.mem.owned.holds_unique hd' hholds, ?_⟩, hframe, hbyte⟩
  rintro rfl
  exact hholds

/-! ## A launch gets there -/

theorem PoolInv.go_builds (h : PoolInv s₀ s) {d : DirRef} {b : Blob} {p : ℕ} (he : s.InExec (.build d b p))
    (hp : p < b.pages) : (s.step .go).2.InExec (.build d b (p + 1)) := by
  obtain ⟨f, m, heq, -⟩ := h.execMapped he.exec hp
  have hgo : (s.step .go).2 = { s with mem := b.copyPage p f m, exec := some (.build d b (p + 1)) } := by
    simp only [step, he.main, he.top, he.exec, if_true, execGo, if_pos hp, heq]
  rw [hgo]
  exact ⟨he.main, rfl, he.top⟩

/-- **A launch builds all its pages.** -/
theorem PoolInv.launch_builds (h : PoolInv s₀ s) (h0 : s.current = 0) (hfree : ¬ s.Busy) (b : Blob) {n : ℕ}
    (hn : n ≤ b.pages) : ∃ d, (runOps step s (.exec b :: List.replicate n .go)).InExec (.build d b n) ∧
      PoolInv s₀ (runOps step s (.exec b :: List.replicate n .go)) := by
  have hexec := not_busy_exec hfree h0
  have htop : s.reaps 0 = [] := by
    by_contra hne
    exact hfree (.inl (h0 ▸ hne))
  obtain ⟨k, hk⟩ := h.exists_dir (.inr hexec)
  obtain ⟨heq, hinv⟩ := h.execStarted hk hexec b
  have hstart : (s.step (.exec b)).2 = { s with mem := s.mem.cloneAt k, exec := some (.build (.task k) b 0) } := by
    have hok : ¬ (s.Busy ∨ s.current ≠ 0) := by simp [hfree, h0]
    simp only [step, if_neg hok, heq]
  refine ⟨.task k, ?_⟩
  induction n with
  | zero =>
    rw [List.replicate_zero, runOps_cons, hstart]
    exact ⟨⟨h0, rfl, htop⟩, hinv⟩
  | succ n ih =>
    obtain ⟨hin, hpool⟩ := ih (by omega)
    rw [List.replicate_succ', ← List.cons_append, runOps_snoc]
    exact ⟨hpool.go_builds hin (by omega), hpool.moves (step_moves _ .go) (by simp [MainStays])⟩

end Kernel

end GannetOS.Proc
