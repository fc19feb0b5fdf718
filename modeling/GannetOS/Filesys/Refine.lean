/-
The filesystem refines the abstract store.

`FsState.toStore` forgets slots and sectors. `Linked` is the invariant of the simulation: the sectors are sound, the
namespace is a tree, and every open descriptor refers to a file in use, with an offset within it. It holds as long as no
file is removed while it is open.

Result: `fs_refines_store`.
-/
import GannetOS.Filesys.Namespace
import GannetOS.Filesys.Store

namespace GannetOS.Filesys

open GannetOS.Core FsState
open Function (update update_eq_self update_of_ne update_self)

/-! ## Abstraction -/

namespace FsState

/-- the path stored in slot `i` -/
def pathAt (s : FsState) (i : ℕ) : CStr := ⟨s.nameAt i, nameAt_nulFree s i⟩

@[simp] theorem pathAt_bytes (s : FsState) (i : ℕ) : (s.pathAt i).bytes = s.nameAt i := rfl

variable {s : FsState} {i : ℕ}

theorem pathAt_eq {p : CStr} : s.pathAt i = p ↔ s.nameAt i = p.bytes := by
  rw [← pathAt_bytes]
  exact ⟨fun h => by rw [h], CStr.ext⟩

/-- what is in slot `i` -/
def kind (s : FsState) (i : ℕ) : Node := if (s.inode i).type = fsTypeDir then .dir else .file (s.content i)

def node (s : FsState) (p : CStr) : Option Node := (s.find p.bytes).map s.kind

def desc (s : FsState) (k : Fin 8) : Option (CStr × ℕ) :=
  (s.fds k).inodeIdx.map fun i => (s.pathAt i, (s.fds k).offset.toNat)

def toStore (s : FsState) : Store := ⟨s.node, s.desc⟩

@[simp] theorem toStore_node (s : FsState) : s.toStore.node = s.node := rfl
@[simp] theorem toStore_desc (s : FsState) : s.toStore.desc = s.desc := rfl

theorem kind_dir (h : (s.inode i).type = fsTypeDir) : s.kind i = .dir := if_pos h

theorem kind_file (h : (s.inode i).type ≠ fsTypeDir) : s.kind i = .file (s.content i) := if_neg h

theorem kind_eq_dir : s.kind i = .dir ↔ (s.inode i).type = fsTypeDir := by
  unfold kind
  split_ifs with h <;> simp [h]

theorem node_none {p : CStr} : s.node p = none ↔ s.find p.bytes = none := by simp [node]

end FsState

section
variable {s : FsState} (h : Tree s)
include h

variable {p : CStr}

theorem Tree.node_at {i : ℕ} (hi : s.live i) (hp : s.nameAt i = p.bytes) : s.node p = some (s.kind i) := by
  rw [node, h.find_iff.2 ⟨hi, hp⟩]
  rfl

theorem Tree.node_dir : s.node p = some .dir ↔ s.isdir p.bytes = true := by
  rw [h.isdir_iff]
  constructor
  · intro hp
    obtain ⟨i, hf, hk⟩ := Option.map_eq_some_iff.1 hp
    obtain ⟨hi, hn⟩ := find_some hf
    exact ⟨i, hi, kind_eq_dir.1 hk, hn⟩
  · rintro ⟨i, hi, ht, hn⟩
    rw [h.node_at hi hn, kind_dir ht]

/-- a path is not affected by a change that leaves its slot alone -/
theorem Tree.node_congr {t : FsState} (ht : Tree t) {q : CStr}
    (hslot : ∀ i, t.live i ∧ t.nameAt i = q.bytes ↔ s.live i ∧ s.nameAt i = q.bytes)
    (hkind : ∀ i, s.live i → s.nameAt i = q.bytes → t.kind i = s.kind i) : t.node q = s.node q := by
  cases hf : s.find q.bytes with
  | none =>
    rw [node_none.2 hf, node_none]
    cases hg : t.find q.bytes with
    | none => rfl
    | some i =>
      obtain ⟨hi, hn⟩ := (hslot i).1 (find_some hg)
      exact absurd hn (find_none.1 hf i hi)
  | some i =>
    obtain ⟨hi, hn⟩ := find_some hf
    obtain ⟨hi', hn'⟩ := (hslot i).2 ⟨hi, hn⟩
    rw [h.node_at hi hn, ht.node_at hi' hn', hkind i hi hn]

/-- the store is full when there is no free slot -/
theorem Tree.full_iff : s.toStore.full ↔ s.freeSlot = none := by
  have hset : {p | s.toStore.node p ≠ none} = s.pathAt '' {i | s.live i} := by
    ext p
    constructor
    · intro hp
      obtain ⟨i, hf⟩ := Option.ne_none_iff_exists'.1 fun hf => hp (node_none.2 hf)
      obtain ⟨hi, hn⟩ := find_some hf
      exact ⟨i, hi, pathAt_eq.2 hn⟩
    · rintro ⟨i, hi, rfl⟩ hnone
      rw [toStore_node, h.node_at hi (pathAt_bytes s i).symm] at hnone
      cases hnone
  have hinj : Set.InjOn s.pathAt {i | s.live i} := fun i hi j hj hij => by
    rw [pathAt_eq, pathAt_bytes] at hij
    exact h.unique i j hi hj hij
  have hsub : {i | s.live i} ⊆ (Finset.range 512 : Finset ℕ) := fun i hi => by simpa using hi.1
  rw [Store.full, hset, hinj.ncard_image]
  constructor
  · intro hcard
    have hall : {i | s.live i} = (Finset.range 512 : Finset ℕ) :=
      Set.eq_of_subset_of_ncard_le hsub (by rw [Set.ncard_coe_finset, hcard, Finset.card_range]) (Finset.finite_toSet _)
    cases hfree : s.freeSlot with
    | none => rfl
    | some i =>
      obtain ⟨hi, h0⟩ := freeSlot_some hfree
      have hl : i ∈ {i | s.live i} := by rw [hall]; simpa using hi
      exact absurd h0 hl.2
  · intro hfree
    have hall : {i | s.live i} = (Finset.range 512 : Finset ℕ) :=
      Set.Subset.antisymm hsub fun i hi => freeSlot_none hfree (by simpa using hi)
    rw [hall, Set.ncard_coe_finset, Finset.card_range]

theorem Tree.creatable_iff : s.toStore.creatable p ↔
    s.find p.bytes = none ∧ s.isdir (parentOf p.bytes) = true ∧ s.freeSlot ≠ none := by
  unfold Store.creatable
  rw [h.full_iff, toStore_node, node_none, h.node_dir]
  rfl

end

theorem closed_eq (s : FsState) : s.toStore.closed = s.freeFd := by
  simp [Store.closed, freeFd, desc]

/-! ## The invariant -/

structure Linked (s : FsState) : Prop where
  sound : Sound s
  tree : Tree s
  file : ∀ k i, (s.fds k).inodeIdx = some i → (s.inode i).type = fsTypeFile
  offset : ∀ k i, (s.fds k).inodeIdx = some i → (s.fds k).offset.toNat ≤ (s.inode i).size.toNat

section
variable {s : FsState} (h : Linked s)
include h

variable {k : Fin 8} {i : ℕ}

theorem Linked.live (hi : (s.fds k).inodeIdx = some i) : s.live i :=
  ⟨h.sound.fdIdx k i hi, by rw [h.file k i hi]; decide⟩

theorem Linked.kind (hi : (s.fds k).inodeIdx = some i) : s.kind i = .file (s.content i) :=
  kind_file (by rw [h.file k i hi]; decide)

theorem Linked.opened {fd : ℤ} (hk : fdSlot fd = some k) (hi : (s.fds k).inodeIdx = some i) :
    s.toStore.opened fd = some (k, s.pathAt i, (s.fds k).offset.toNat, s.content i) := by
  have hd : s.desc k = some (s.pathAt i, (s.fds k).offset.toNat) := by rw [desc, hi]; rfl
  have hn : s.node (s.pathAt i) = some (.file (s.content i)) := by
    rw [h.tree.node_at (h.live hi) (pathAt_bytes s i).symm, h.kind hi]
  simp only [Store.opened, hk, toStore_desc, hd, toStore_node, hn]

omit h in
theorem opened_closed {fd : ℤ} (hclosed : ∀ k i, fdSlot fd = some k → (s.fds k).inodeIdx ≠ some i) :
    s.toStore.opened fd = none := by
  unfold Store.opened
  cases hk : fdSlot fd with
  | none => rfl
  | some k =>
    have hnone : (s.fds k).inodeIdx = none := Option.eq_none_iff_forall_ne_some.2 fun i => hclosed k i hk
    have hd : s.desc k = none := by rw [desc, hnone]; rfl
    simp only [toStore_desc, hd]

end

/-! ## State changes -/

theorem setFd_toStore (s : FsState) (k : Fin 8) (e : Fd) :
    (s.setFd k e).toStore = s.toStore.setDesc k (e.inodeIdx.map fun i => (s.pathAt i, e.offset.toNat)) := by
  have hpath : ∀ i, (s.setFd k e).pathAt i = s.pathAt i := fun i => pathAt_eq.2 (nameAt_congr (setFd_inode s i k e))
  apply Store.ext
  · funext p
    show ((s.setFd k e).find p.bytes).map (s.setFd k e).kind = (s.find p.bytes).map s.kind
    rw [setFd_find]
    rfl
  · funext k'
    show (s.setFd k e).desc k' = update s.desc k _ k'
    by_cases hk : k' = k
    · rw [hk, update_self, desc, setFd_fds, update_self]
      simp only [hpath]
    · rw [update_of_ne hk, desc, desc, setFd_fds, update_of_ne hk]
      simp only [hpath]

variable {s : FsState}

/-- what a descriptor shows depends on its entry and on the name of its inode -/
theorem desc_congr {t : FsState} {k : Fin 8} (hfds : t.fds k = s.fds k)
    (hname : ∀ i, (s.fds k).inodeIdx = some i → t.nameAt i = s.nameAt i) : t.desc k = s.desc k := by
  rw [desc, desc, hfds]
  refine Option.map_congr fun i hi => ?_
  have hpath : t.pathAt i = s.pathAt i := pathAt_eq.2 (hname i hi)
  rw [hpath]

section
variable {s : FsState} (h : Linked s)
include h

variable {t : FsState} {i : ℕ} {S : ℕ → Prop}

/-- an inode whose record and data sectors are as they were shows the same node -/
theorem Linked.kind_congr (hi : s.live i) (hino : t.inode i = s.inode i)
    (hdisk : ∀ lba, 428 ≤ lba → t.disk lba = s.disk lba) : t.kind i = s.kind i := by
  have hc : t.content i = s.content i :=
    content_congr (h.sound.placed i (Or.inl hi)) hino fun b _ => hdisk _ (by omega)
  rw [FsState.kind, FsState.kind, hino, hc]

/-- a new inode is a new path -/
theorem Linked.create_toStore {p : CStr} {type : UInt8} (hi : i < 512) (hfree : (s.inode i).type = 0)
    (htype : type = fsTypeFile ∨ type = fsTypeDir) (hlen : p.bytes.length < 128)
    (ht : Tree (s.create i p.bytes type)) :
    (s.create i p.bytes type).toStore =
      s.toStore.set p (some (if type = fsTypeDir then .dir else .file [])) := by
  set t := s.create i p.bytes type with hdef
  have hino : ∀ j, j ≠ i → t.inode j = s.inode j := fun j hj => by rw [hdef, create_inode, if_neg hj]
  have hi' : t.inode i = Inode.fresh p.bytes type := by rw [hdef, create_inode, if_pos rfl]
  have hname : t.nameAt i = p.bytes := create_nameAt s i type p hlen
  have htne : type ≠ 0 := by rcases htype with rfl | rfl <;> decide
  have hlive : t.live i := ⟨hi, by rw [hi']; exact htne⟩
  have hne : ∀ j, s.live j → j ≠ i := fun j hj hji => hj.2 (hji ▸ hfree)
  apply Store.ext
  · funext q
    show t.node q = update s.node p _ q
    by_cases hq : q = p
    · subst hq
      have hempty : t.content i = [] := List.eq_nil_of_length_eq_zero (by rw [content_length, hi']; rfl)
      have htp : (t.inode i).type = type := by rw [hi']; rfl
      rw [update_self, ht.node_at hlive hname, FsState.kind, htp, hempty]
    · rw [update_of_ne hq]
      refine h.tree.node_congr ht (fun j => ?_) fun j hj _ =>
        h.kind_congr hj (hino j (hne j hj)) fun lba hl => create_disk _ _ _ _ hi (Or.inr hl)
      by_cases hji : j = i
      · subst hji
        refine ⟨fun ⟨_, hn⟩ => absurd (CStr.ext (hn.symm.trans hname)) hq, fun ⟨hj, _⟩ => absurd rfl (hne j hj)⟩
      · unfold FsState.live
        rw [hino j hji, nameAt_congr (hino j hji)]
  · funext k
    exact desc_congr rfl fun j hj => nameAt_congr (hino j (hne j (h.live hj)))

theorem Linked.create {p : List UInt8} {type : UInt8} (hi : i < 512) (hfree : (s.inode i).type = 0)
    (ht : Tree (s.create i p type)) : Linked (s.create i p type) := by
  have hino : ∀ k j, (s.fds k).inodeIdx = some j → (s.create i p type).inode j = s.inode j := by
    intro k j hj
    rw [create_inode, if_neg]
    rintro rfl
    exact (h.live hj).2 hfree
  refine ⟨h.sound.create hi p type, ht, fun k j hj => ?_, fun k j hj => ?_⟩
  · rw [hino k j hj]; exact h.file k j hj
  · rw [hino k j hj]; exact h.offset k j hj

omit h in
/-- a path whose inode is removed is gone -/
theorem Pruned.node_gone (hcut : Pruned S s t) {q : CStr} (hq : ∀ i, s.live i → s.nameAt i = q.bytes → S i) :
    t.node q = none := by
  rw [node_none]
  refine find_none.2 fun i hi hn => ?_
  obtain ⟨hl, hS⟩ := hcut.live_iff.1 hi
  exact hS (hq i hl (by rw [← hcut.nameAt_eq hS]; exact hn))

/-- a path whose inode is not removed is as it was -/
theorem Linked.node_kept (hcut : Pruned S s t) (ht : Tree t) (hdisk : ∀ lba, 428 ≤ lba → t.disk lba = s.disk lba)
    {q : CStr} (hq : ∀ i, s.live i → s.nameAt i = q.bytes → ¬ S i) : t.node q = s.node q := by
  refine h.tree.node_congr ht (fun i => ⟨fun ⟨hi, hn⟩ => ?_, fun ⟨hi, hn⟩ => ?_⟩) fun i hi hn =>
    h.kind_congr hi (hcut.kept i (hq i hi hn)) hdisk
  · obtain ⟨hl, hS⟩ := hcut.live_iff.1 hi
    exact ⟨hl, by rw [← hcut.nameAt_eq hS]; exact hn⟩
  · have hS := hq i hi hn
    exact ⟨hcut.live_iff.2 ⟨hi, hS⟩, by rw [hcut.nameAt_eq hS]; exact hn⟩

/-- removing inodes that are not open -/
theorem Linked.pruned (hcut : Pruned S s t) (hsound : Sound t) (ht : Tree t) (hfds : t.fds = s.fds)
    (hopen : ∀ k i, (s.fds k).inodeIdx = some i → ¬ S i) :
    Linked t ∧ t.desc = s.desc := by
  refine ⟨⟨hsound, ht, fun k i hi => ?_, fun k i hi => ?_⟩, funext fun k => desc_congr (by rw [hfds]) fun i hi =>
    hcut.nameAt_eq (hopen k i hi)⟩
  · rw [hfds] at hi
    rw [hcut.kept i (hopen k i hi)]
    exact h.file k i hi
  · rw [hfds] at hi ⊢
    rw [hcut.kept i (hopen k i hi)]
    exact h.offset k i hi

omit h in
theorem pruned_remove (s : FsState) (i : ℕ) : Pruned (· = i) s (s.remove i) :=
  ⟨fun j hj => by rw [remove_inode, if_pos hj], fun j hj => by rw [remove_inode, if_neg hj]⟩

/-- removing one inode that is not open removes one path -/
theorem Linked.remove_toStore (hi : s.live i) (ht : Tree (s.remove i)) (hopen : ∀ k, (s.fds k).inodeIdx ≠ some i)
    {p : CStr} (hp : s.nameAt i = p.bytes) :
    Linked (s.remove i) ∧ (s.remove i).toStore = s.toStore.set p none := by
  have hcut := pruned_remove s i
  obtain ⟨hl, hdesc⟩ := h.pruned hcut (h.sound.remove hi) ht (remove_fds s i) fun k j hj hji => hopen k (hji ▸ hj)
  refine ⟨hl, Store.ext ?_ hdesc⟩
  funext q
  show (s.remove i).node q = update s.node p none q
  by_cases hq : q = p
  · rw [hq, update_self]
    exact hcut.node_gone fun j hj hn => h.tree.unique j i hj hi (hn.trans hp.symm)
  · rw [update_of_ne hq]
    refine h.node_kept hcut ht (fun lba hl => remove_disk _ hi.1 (Or.inr hl)) fun j _ hn hji => hq (CStr.ext ?_)
    rw [← hn, hji, hp]

/-- a write changes the content of one path and moves one descriptor -/
theorem Linked.wrote_toStore {k : Fin 8} {data : List UInt8} (hi : (s.fds k).inodeIdx = some i)
    (hw : Wrote s t k i data) (hsound : Sound t) (ht : Tree t)
    (hlen : (s.fds k).offset.toNat + data.length < 4294967296) :
    Linked t ∧ t.toStore = (s.toStore.set (s.pathAt i)
      (some (.file (overwrite (s.content i) (s.fds k).offset.toNat data)))).setDesc k
        (some (s.pathAt i, (s.fds k).offset.toNat + data.length)) := by
  have hlive : ∀ k' j, (s.fds k').inodeIdx = some j → j < 512 := h.sound.fdIdx
  have hname : ∀ j < 512, t.nameAt j = s.nameAt j := fun j hj => by rw [nameAt, nameAt, hw.name_eq hj]
  have hidx : ∀ k', (t.fds k').inodeIdx = (s.fds k').inodeIdx := by
    intro k'
    rw [hw.fds]
    by_cases hk : k' = k
    · rw [hk, update_self, hi]
    · rw [update_of_ne hk]
  refine ⟨⟨hsound, ht, fun k' j hj => ?_, fun k' j hj => ?_⟩, Store.ext ?_ ?_⟩
  · rw [hidx] at hj
    rw [hw.type_eq (hlive k' j hj)]
    exact h.file k' j hj
  · -- offsets stay within the file, whose size only grows
    rw [hidx] at hj
    by_cases hk : k' = k
    · subst hk
      obtain rfl : i = j := Option.some.inj (hi.symm.trans hj)
      rw [hw.fds, update_self, hw.size]
      rw [toNat_ofNat32 hlen]
      omega
    · rw [hw.fds, update_of_ne hk]
      have hoff := h.offset k' j hj
      by_cases hji : j = i
      · rw [hji, hw.size]
        rw [hji] at hoff
        omega
      · rw [hw.other j (hlive k' j hj) hji]
        exact hoff
  · funext q
    show t.node q = update s.node (s.pathAt i) _ q
    by_cases hq : q = s.pathAt i
    · have hlt : t.live i := hw.live_iff.2 (h.live hi)
      have hfile : (t.inode i).type ≠ fsTypeDir := by rw [hw.kind, h.file k i hi]; decide
      rw [hq, update_self, ht.node_at hlt (by rw [pathAt_bytes, hname i (hlive k i hi)]), kind_file hfile,
        hw.content (h.offset k i hi)]
    · rw [update_of_ne hq]
      refine h.tree.node_congr ht (fun j => ?_) fun j hj hn => ?_
      · rw [hw.live_iff]
        exact and_congr_right fun hj => by rw [hname j hj.1]
      · have hji : j ≠ i := by
          rintro rfl
          exact hq (pathAt_eq.2 hn).symm
        rw [FsState.kind, FsState.kind, hw.other j hj.1 hji, hw.content_other h.sound (Or.inl hj) hji]
  · funext k'
    show t.desc k' = update s.desc k _ k'
    by_cases hk : k' = k
    · have hpath : t.pathAt i = s.pathAt i := pathAt_eq.2 (hname i (hlive k i hi))
      rw [hk, update_self, desc, hw.fds, update_self]
      simp only [Option.map_some, hpath, toNat_ofNat32 hlen]
    · rw [update_of_ne hk]
      refine desc_congr (by rw [hw.fds, update_of_ne hk]) fun j hj => hname j (hlive k' j hj)

theorem Linked.setFd {k : Fin 8} {e : Fd} (hsound : Sound (s.setFd k e)) (ht : Tree (s.setFd k e))
    (he : ∀ i, e.inodeIdx = some i → (s.inode i).type = fsTypeFile ∧ e.offset.toNat ≤ (s.inode i).size.toNat) :
    Linked (s.setFd k e) := by
  have hcases : ∀ k' i, ((s.setFd k e).fds k').inodeIdx = some i →
      (s.inode i).type = fsTypeFile ∧ ((s.setFd k e).fds k').offset.toNat ≤ (s.inode i).size.toNat := by
    intro k' i hi
    rw [setFd_fds] at hi ⊢
    by_cases hk : k' = k
    · rw [hk, update_self] at hi ⊢
      exact he i hi
    · rw [update_of_ne hk] at hi ⊢
      exact ⟨h.file k' i hi, h.offset k' i hi⟩
  exact ⟨hsound, ht, fun k' i hi => (hcases k' i hi).1, fun k' i hi => (hcases k' i hi).2⟩

end

/-! ## Simulation -/

/-- no file is removed while a descriptor is open on it -/
def Op.sparesOpen (s : FsState) : Op → Prop
  | .fsDelete p => ∀ k i, (s.fds k).inodeIdx = some i → s.nameAt i ≠ p.bytes
  | .fsRrmdr p => p.bytes ≠ [slash] → ∀ k i, (s.fds k).inodeIdx = some i → s.nameAt i ≠ p.bytes →
      ¬ under p.bytes (s.nameAt i)
  | _ => True

def Allowed (s : FsState) (o : Op) : Prop := o.bounded ∧ o.sparesOpen s

theorem Op.bounded.storable {o : Op} (h : o.bounded) (s : FsState) : o.storable s := by
  cases o with
  | fsOpen p create => exact fun _ => h
  | fsMkdir p => exact fun _ => h
  | _ => trivial

/-- the call and its result are a step of the store, and the invariant holds afterwards -/
def Simulated (s : FsState) (o : Op) : Prop := Linked (step s o).2 ∧ s.toStore.Step o (step s o).1 (step s o).2.toStore

section
variable {s : FsState} (h : Linked s)
include h

/-- the call failed and changed nothing -/
theorem Linked.stuck {o : Op} {r : Res} (hstep : step s o = (r, s)) (room : Bool)
    (habs : s.toStore.step room o = (r, s.toStore)) : Simulated s o := by
  rw [Simulated, hstep]
  exact ⟨h, room, habs.symm⟩

theorem Linked.simulated_open (p : CStr) (create : Bool) (ho : p.bytes.length < 128)
    (hsound : Sound (step s (.fsOpen p create)).2) (ht : Tree (step s (.fsOpen p create)).2) :
    Simulated s (.fsOpen p create) := by
  have hrun : step s (.fsOpen p create) = Prod.map Res.fd id ((fsOpen p.arg create : StateM FsState _) s) := rfl
  rw [fsOpen_run h.sound.faults] at hrun
  cases hfd : s.freeFd with
  | none =>
    simp only [hfd] at hrun
    exact h.stuck hrun true (by simp only [Store.step, closed_eq, hfd])
  | some k =>
    cases hf : s.find p.bytes with
    | some i =>
      obtain ⟨hi, hn⟩ := find_some hf
      have hnode : s.node p = some (s.kind i) := h.tree.node_at hi hn
      by_cases hdir : (s.inode i).type = fsTypeDir
      · simp only [hfd, hf, if_pos hdir] at hrun
        exact h.stuck hrun true (by simp only [Store.step, closed_eq, hfd, toStore_node, hnode, kind_dir hdir])
      · simp only [hfd, hf, if_neg hdir] at hrun
        have hfile : (s.inode i).type = fsTypeFile := (h.tree.kinds i hi).resolve_right hdir
        rw [hrun] at hsound ht
        rw [Simulated, hrun]
        refine ⟨h.setFd hsound ht fun j hj => ?_, true, ?_⟩
        · obtain rfl : i = j := Option.some.inj hj
          exact ⟨hfile, Nat.zero_le _⟩
        · have hpath : s.pathAt i = p := pathAt_eq.2 hn
          simp only [Store.step, closed_eq, hfd, toStore_node, hnode, kind_file hdir, Prod.map, id, setFd_toStore,
            Option.map_some, hpath]
          rfl
    | none =>
      have hnode : s.node p = none := node_none.2 hf
      by_cases hno : create = false ∨ s.isdir (parentOf p.bytes) = false
      · simp only [hfd, hf, if_pos hno] at hrun
        refine h.stuck hrun true ?_
        have hnc : ¬ (create = true ∧ s.toStore.creatable p) := by
          rw [h.tree.creatable_iff]
          rintro ⟨hc, -, hd, -⟩
          simp [hc, hd] at hno
        simp only [Store.step, closed_eq, hfd, toStore_node, hnode, if_neg hnc]
      · have hyes : create = true ∧ s.isdir (parentOf p.bytes) = true := by simpa using hno
        cases hfree : s.freeSlot with
        | none =>
          simp only [hfd, hf, if_neg hno, hfree] at hrun
          refine h.stuck hrun true ?_
          have hnc : ¬ (create = true ∧ s.toStore.creatable p) := by
            rw [h.tree.creatable_iff]
            exact fun hc => hc.2.2.2 hfree
          simp only [Store.step, closed_eq, hfd, toStore_node, hnode, if_neg hnc]
        | some i =>
          simp only [hfd, hf, if_neg hno, hfree] at hrun
          obtain ⟨hi, h0⟩ := freeSlot_some hfree
          have hc : create = true ∧ s.toStore.creatable p :=
            ⟨hyes.1, h.tree.creatable_iff.2 ⟨hf, hyes.2, by rw [hfree]; simp⟩⟩
          have htree := h.tree.create hi h0 (Or.inl rfl) p.nulFree ho hf hyes.2
          have hpath : (s.create i p.bytes fsTypeFile).pathAt i = p := pathAt_eq.2 (create_nameAt s i _ p ho)
          have htype : ((s.create i p.bytes fsTypeFile).inode i).type = fsTypeFile := by
            rw [create_inode, if_pos rfl]; rfl
          rw [hrun] at hsound ht
          rw [Simulated, hrun]
          refine ⟨(h.create hi h0 htree).setFd hsound ht fun j hj => ?_, true, ?_⟩
          · obtain rfl : i = j := Option.some.inj hj
            exact ⟨htype, Nat.zero_le _⟩
          · have hstore := h.create_toStore hi h0 (Or.inl rfl) ho htree
            simp only [Store.step, closed_eq, hfd, toStore_node, hnode, if_pos hc, Prod.map, id, setFd_toStore,
              Option.map_some, hpath, hstore]
            rfl

theorem Linked.simulated_mkdir (p : CStr) (ho : p.bytes.length < 128) (ht : Tree (step s (.fsMkdir p)).2) :
    Simulated s (.fsMkdir p) := by
  have hrun : step s (.fsMkdir p) = Prod.map Res.rc id ((fsMkdir p.arg : StateM FsState _) s) := rfl
  rw [fsMkdir_run h.sound.faults] at hrun
  by_cases hno : (s.find p.bytes).isSome ∨ s.isdir (parentOf p.bytes) = false
  · rw [if_pos hno] at hrun
    refine h.stuck hrun true (if_neg fun hc => ?_)
    obtain ⟨hf, hd, -⟩ := h.tree.creatable_iff.1 hc
    simp [hf, hd] at hno
  · rw [if_neg hno] at hrun
    have hyes : s.find p.bytes = none ∧ s.isdir (parentOf p.bytes) = true := by simpa using hno
    cases hfree : s.freeSlot with
    | none =>
      simp only [hfree] at hrun
      exact h.stuck hrun true (if_neg fun hc => (h.tree.creatable_iff.1 hc).2.2 hfree)
    | some i =>
      simp only [hfree] at hrun
      obtain ⟨hi, h0⟩ := freeSlot_some hfree
      have hc : s.toStore.creatable p := h.tree.creatable_iff.2 ⟨hyes.1, hyes.2, by rw [hfree]; simp⟩
      have hstore := h.create_toStore hi h0 (Or.inr rfl) ho (by rw [hrun] at ht; exact ht)
      rw [if_pos rfl] at hstore
      rw [hrun] at ht
      rw [Simulated, hrun]
      refine ⟨h.create hi h0 ht, true, ?_⟩
      simp only [Store.step, if_pos hc, Prod.map, id, hstore]

theorem Linked.simulated_rmdir (p : CStr) (ht : Tree (step s (.fsRmdir p)).2) : Simulated s (.fsRmdir p) := by
  have hrun : step s (.fsRmdir p) = Prod.map Res.rc id ((fsRmdir p.arg : StateM FsState _) s) := rfl
  rw [fsRmdir_run h.sound.faults] at hrun
  by_cases hroot : p.bytes = [slash]
  · rw [if_pos hroot] at hrun
    exact h.stuck hrun true (if_neg fun hc => hc.1 (CStr.ext hroot))
  · rw [if_neg hroot] at hrun
    cases hf : s.find p.bytes with
    | none =>
      simp only [hf] at hrun
      refine h.stuck hrun true (if_neg fun hc => ?_)
      rw [toStore_node, node_none.2 hf] at hc
      cases hc.2.1
    | some i =>
      obtain ⟨hi, hn⟩ := find_some hf
      have hnode : s.node p = some (s.kind i) := h.tree.node_at hi hn
      simp only [hf] at hrun
      -- no child in the table is no child in the store
      have hchild : s.noChild p.bytes i = true ↔ ∀ q, q ≠ p → parentPath q = p → s.node q = none := by
        rw [noChild_iff]
        constructor
        · intro hno q hq hqp
          refine node_none.2 (find_none.2 fun j hj hjn => hno j hj ?_ (by rw [hjn, ← hqp]; rfl))
          rintro rfl
          exact hq (CStr.ext (hjn.symm.trans hn))
        · intro hno j hj hji hjp
          have hq : s.pathAt j ≠ p := fun he => hji (h.tree.unique j i hj hi ((pathAt_eq.1 he).trans hn.symm))
          have hnone := hno (s.pathAt j) hq (CStr.ext hjp)
          rw [h.tree.node_at hj (pathAt_bytes s j).symm] at hnone
          cases hnone
      by_cases hdir : (s.inode i).type = fsTypeDir ∧ s.noChild p.bytes i = true
      · rw [if_pos hdir] at hrun
        have hrm : s.remove i = s.dropDir i := by rw [FsState.remove, if_pos hdir.1]
        have hopen : ∀ k, (s.fds k).inodeIdx ≠ some i := by
          intro k hk
          have hfile := h.file k i hk
          rw [hdir.1] at hfile
          exact absurd hfile (by decide)
        rw [hrun] at ht
        obtain ⟨hl, hstore⟩ := h.remove_toStore hi (by rw [hrm]; exact ht) hopen hn
        rw [hrm] at hl hstore
        rw [Simulated, hrun]
        refine ⟨hl, true, ?_⟩
        have hc : p ≠ rootPath ∧ s.toStore.node p = some .dir ∧ ∀ q, q ≠ p → parentPath q = p → s.toStore.node q = none :=
          ⟨fun he => hroot (congrArg CStr.bytes he), by rw [toStore_node, hnode, kind_dir hdir.1], hchild.1 hdir.2⟩
        simp only [Store.step, if_pos hc, Prod.map, id, hstore]
      · rw [if_neg hdir] at hrun
        refine h.stuck hrun true (if_neg fun hc => hdir ⟨?_, hchild.2 hc.2.2⟩)
        have hk := hc.2.1
        rw [toStore_node, hnode] at hk
        exact kind_eq_dir.1 (Option.some.inj hk)

theorem Linked.simulated_rrmdr (p : CStr) (ho : Op.sparesOpen s (.fsRrmdr p)) : Simulated s (.fsRrmdr p) := by
  by_cases hroot : p.bytes = [slash]
  · have hrun : step s (.fsRrmdr p) = (.rc false, s) := by
      simp only [step, fsRrmdr_fails p h.sound.faults (Or.inl hroot)]
      rfl
    exact h.stuck hrun true (if_neg fun hc => hc.1 (CStr.ext hroot))
  · by_cases hdir : ∃ i, s.find p.bytes = some i ∧ (s.inode i).type = fsTypeDir
    · obtain ⟨i, hf, hd⟩ := hdir
      obtain ⟨hi, hn⟩ := find_some hf
      obtain ⟨t, hrun', hcut⟩ := fsRrmdr_prunes p h.sound.ready h.tree.nested hf hd hroot
      have hrm : s.Removes t := by
        have := fsRrmdr_removes p h.sound.ready
        rwa [hrun'] at this
      have hrun : step s (.fsRrmdr p) = (.rc true, t) := by
        simp only [step, hrun']
        rfl
      have htree := h.tree.prune_below hroot hcut
      have hopen : ∀ k j, (s.fds k).inodeIdx = some j → ¬ s.below p.bytes j := by
        intro k j hj hb
        refine ho hroot k j hj (fun hjn => ?_) hb.2
        have hfile := h.file k j hj
        rw [h.tree.unique j i (h.live hj) hi (hjn.trans hn.symm), hd] at hfile
        exact absurd hfile (by decide)
      have hsound : Sound t := h.sound.moves (Removes.moves Policy.any hrm)
      obtain ⟨hl, hdesc⟩ := h.pruned hcut hsound htree hrm.fds_eq hopen
      have hstore : t.toStore = s.toStore.prune p := by
        refine Store.ext (funext fun q => ?_) hdesc
        by_cases hq : under p.bytes q.bytes
        · rw [Store.prune_under hq]
          exact hcut.node_gone fun j hj hjn => ⟨hj, hjn ▸ hq⟩
        · rw [Store.prune_apart hq]
          exact h.node_kept hcut htree (fun lba hlba => hrm.disk_eq (Or.inr hlba)) fun j _ hjn hb => hq (hjn ▸ hb.2)
      rw [Simulated, hrun]
      refine ⟨hl, true, ?_⟩
      have hc : p ≠ rootPath ∧ s.toStore.node p = some .dir :=
        ⟨fun he => hroot (congrArg CStr.bytes he), by rw [toStore_node, h.tree.node_at hi hn, kind_dir hd]⟩
      simp only [Store.step, if_pos hc, hstore]
    · have hrun : step s (.fsRrmdr p) = (.rc false, s) := by
        simp only [step, fsRrmdr_fails p h.sound.faults (Or.inr fun i hf hd => hdir ⟨i, hf, hd⟩)]
        rfl
      refine h.stuck hrun true (if_neg fun hc => hdir ?_)
      obtain ⟨i, hf, hk⟩ := Option.map_eq_some_iff.1 hc.2
      exact ⟨i, hf, kind_eq_dir.1 hk⟩

theorem Linked.simulated_delete (p : CStr) (ho : Op.sparesOpen s (.fsDelete p)) (ht : Tree (step s (.fsDelete p)).2) :
    Simulated s (.fsDelete p) := by
  have hrun : step s (.fsDelete p) = Prod.map Res.rc id ((fsDelete p.arg : StateM FsState _) s) := rfl
  rw [CStr.arg, fsDelete_run h.sound.faults _ h.sound.ready.placed, cstr_of_nulFree p.nulFree] at hrun
  cases hf : s.find p.bytes with
  | none =>
    simp only [hf] at hrun
    exact h.stuck hrun true (by simp only [Store.step, toStore_node, node_none.2 hf])
  | some i =>
    obtain ⟨hi, hn⟩ := find_some hf
    have hnode : s.node p = some (s.kind i) := h.tree.node_at hi hn
    simp only [hf] at hrun
    by_cases hdir : (s.inode i).type = fsTypeDir
    · rw [if_pos hdir] at hrun
      exact h.stuck hrun true (by simp only [Store.step, toStore_node, hnode, kind_dir hdir])
    · rw [if_neg hdir] at hrun
      have hrm : s.remove i = s.dropFile i := by rw [FsState.remove, if_neg hdir]
      rw [hrun] at ht
      obtain ⟨hl, hstore⟩ := h.remove_toStore hi (by rw [hrm]; exact ht) (fun k hk => ho k i hk hn) hn
      rw [hrm] at hl hstore
      rw [Simulated, hrun]
      refine ⟨hl, true, ?_⟩
      simp only [Store.step, toStore_node, hnode, kind_file hdir, Prod.map, id, hstore]

theorem Linked.simulated_read (fd : ℤ) (len : UInt32) (hsound : Sound (step s (.fsRead fd len)).2)
    (ht : Tree (step s (.fsRead fd len)).2) : Simulated s (.fsRead fd len) := by
  rcases fd_cases s fd with ⟨k, i, hk, hi⟩ | hclosed
  · have hoff := h.offset k i hi
    have hsize : (s.inode i).size.toNat < 4294967296 := UInt32.toNat_lt _
    have hend : (UInt32.ofNat ((s.fds k).offset.toNat +
        min len.toNat ((s.inode i).size.toNat - (s.fds k).offset.toNat))).toNat =
        (s.fds k).offset.toNat + min len.toNat ((s.inode i).size.toNat - (s.fds k).offset.toNat) :=
      toNat_ofNat32 (by omega)
    rw [step_read h.sound hk hi] at hsound ht
    rw [Simulated, step_read h.sound hk hi]
    refine ⟨h.setFd hsound ht fun j hj => ?_, true, ?_⟩
    · obtain rfl : i = j := Option.some.inj hj
      refine ⟨h.file k i hi, ?_⟩
      simp only
      omega
    · simp only [Store.step, h.opened hk hi, setFd_toStore, Option.map_some, hend, content_length]
  · have hrun : step s (.fsRead fd len) = (.data none, s) := by
      simp only [step, fsRead_closed s fd _ hclosed]
      rfl
    exact h.stuck hrun true (by simp only [Store.step, opened_closed hclosed])

theorem Linked.simulated_write (fd : ℤ) (data : List UInt8) (hfit : Op.fits s (.fsWrite fd data))
    (hsound : Sound (step s (.fsWrite fd data)).2) (ht : Tree (step s (.fsWrite fd data)).2) :
    Simulated s (.fsWrite fd data) := by
  rcases fd_cases s fd with ⟨k, i, hk, hi⟩ | hclosed
  · by_cases hne : data = []
    · -- nothing to write: the store is overwritten by nothing
      subst hne
      have hrun : step s (.fsWrite fd []) = (.count (some 0), s) := by
        simp only [step, List.length_nil, fsWrite_empty hk hi]
        rfl
      have hsame : (s.toStore.set (s.pathAt i) (some (.file (s.content i)))).setDesc k
          (some (s.pathAt i, (s.fds k).offset.toNat)) = s.toStore := by
        have hn : s.node (s.pathAt i) = some (.file (s.content i)) := by
          rw [h.tree.node_at (h.live hi) (pathAt_bytes s i).symm, h.kind hi]
        have hd : s.desc k = some (s.pathAt i, (s.fds k).offset.toNat) := by rw [desc, hi]; rfl
        refine Store.ext ?_ ?_
        · show update s.node _ _ = s.node
          rw [← hn, update_eq_self]
        · show update s.desc _ _ = s.desc
          rw [← hd, update_eq_self]
      refine h.stuck hrun true ?_
      simp only [Store.step, h.opened hk hi, or_true, if_true, List.length_nil, Nat.add_zero, overwrite,
        List.append_nil, List.take_append_drop, hsame]
    · have hlen : (s.fds k).offset.toNat + data.length < 4294967296 := by
        have := hfit k i hk hi
        omega
      rcases step_write h.sound hk hi hne hfit with ⟨hrun, hcap, -⟩ | ⟨t, hrun, hw⟩
      · refine h.stuck hrun false ?_
        have hsize := (h.sound.placed i (Or.inr ⟨k, hi⟩)).size
        unfold sectorsFor at hcap
        have hno : ¬ ((s.fds k).offset.toNat + data.length ≤ (s.content i).length ∨ false = true) := by
          rw [content_length]
          simp only [Bool.false_eq_true, or_false]
          omega
        simp only [Store.step, h.opened hk hi, if_neg hno]
      · rw [hrun] at hsound ht
        obtain ⟨hl, hstore⟩ := h.wrote_toStore hi hw hsound ht hlen
        rw [Simulated, hrun]
        refine ⟨hl, true, ?_⟩
        simp only [Store.step, h.opened hk hi, or_true, if_true, hstore]
  · have hrun : step s (.fsWrite fd data) = (.count none, s) := by
      simp only [step, fsWrite_closed s fd _ _ hclosed]
      rfl
    exact h.stuck hrun true (by simp only [Store.step, opened_closed hclosed])

theorem Linked.simulated_close (fd : ℤ) (hsound : Sound (step s (.fsClose fd)).2) (ht : Tree (step s (.fsClose fd)).2) :
    Simulated s (.fsClose fd) := by
  have hrun : step s (.fsClose fd) = Prod.map (fun _ => Res.void) id ((fsClose fd : StateM FsState _) s) := rfl
  rw [fsClose_run] at hrun
  cases hk : fdSlot fd with
  | none =>
    simp only [hk] at hrun
    exact h.stuck hrun true (by simp only [Store.step, hk])
  | some k =>
    simp only [hk] at hrun
    rw [hrun] at hsound ht
    rw [Simulated, hrun]
    refine ⟨h.setFd hsound ht fun j hj => (by cases hj), true, ?_⟩
    simp only [Store.step, hk, Prod.map, id, setFd_toStore]
    rfl

theorem Linked.simulated_init : Simulated s .fsInit := by
  have hrun : step s .fsInit = (.rc true, s.remount) := by
    simp only [step, fsInit_remount h.sound.faults h.sound.magic h.sound.ready.placed]
    rfl
  have hfind : ∀ p, s.remount.find p = s.find p := find_congr fun _ => rfl
  rw [Simulated, hrun]
  refine ⟨⟨h.sound.remount, h.tree.congr fun _ _ => ⟨rfl, rfl⟩, fun k i hi => (by cases hi), fun k i hi => (by cases hi)⟩,
    true, ?_⟩
  have hstore : s.remount.toStore = { s.toStore with desc := fun _ => none } := by
    refine Store.ext (funext fun p => ?_) rfl
    show (s.remount.find p.bytes).map s.remount.kind = (s.find p.bytes).map s.kind
    rw [hfind]
    rfl
  simp only [Store.step, hstore]

/-- every allowed call is a step of the store -/
theorem Linked.simulated (o : Op) (ho : Allowed s o) : Simulated s o := by
  have hfit : o.fits s := h.sound.fits ho.1
  have hsound := h.sound.step o hfit
  have ht := h.tree.step h.sound o hfit (ho.1.storable s)
  cases o with
  | fsInit => exact h.simulated_init
  | fsOpen p create => exact h.simulated_open p create ho.1 hsound ht
  | fsRead fd len => exact h.simulated_read fd len hsound ht
  | fsWrite fd data => exact h.simulated_write fd data hfit hsound ht
  | fsClose fd => exact h.simulated_close fd hsound ht
  | fsMkdir p => exact h.simulated_mkdir p ho.1 ht
  | fsRmdir p => exact h.simulated_rmdir p ht
  | fsRrmdr p => exact h.simulated_rrmdr p ho.2
  | fsDelete p => exact h.simulated_delete p ho.2 ht

end

/-! ## Runs -/

theorem Fresh.linked (hs : Fresh s) : Linked s := by
  have hfds : ∀ k, (s.fds k).inodeIdx = none := by
    obtain ⟨s₀, -, rfl⟩ := hs.eq_formatted
    exact fun _ => rfl
  refine ⟨hs.sound, hs.tree, fun k i hi => ?_, fun k i hi => ?_⟩ <;> rw [hfds] at hi <;> cases hi

/-- a freshly formatted disk is the empty store -/
theorem Fresh.toStore_eq (hs : Fresh s) : s.toStore = Store.empty := by
  have htree := hs.tree
  have hone : ∀ i, s.live i → i = 0 := by
    obtain ⟨s₀, -, rfl⟩ := hs.eq_formatted
    exact fun i => formatted_live
  refine Store.ext (funext fun p => ?_) (funext fun k => ?_)
  · by_cases hp : p = rootPath
    · have hn : s.nameAt 0 = p.bytes := by rw [hp]; exact htree.root.2
      rw [toStore_node, htree.node_at htree.root_live hn, kind_dir htree.root.1]
      exact (if_pos hp).symm
    · have hnone : s.find p.bytes = none := by
        refine find_none.2 fun i hi hn => hp (CStr.ext ?_)
        rw [← hn, hone i hi]
        exact htree.root.2
      rw [toStore_node, node_none.2 hnone]
      exact (if_neg hp).symm
  · obtain ⟨s₀, -, rfl⟩ := hs.eq_formatted
    rfl

/-- **The filesystem refines the store.** Every run from a fresh disk, in which no file is removed while it is open, is a
run of the abstract store with the same results. In the state reached, every allowed call is a step of the store, and one
that returns -1 leaves the store as it was. -/
theorem fs_refines_store {s t : FsState} {tr : List (Op × Res)} (hs : Fresh s) (hrun : Run step Allowed s tr t) :
    ARun Store.Step Store.empty tr t.toStore ∧
      ∀ o, Allowed t o → t.toStore.Step o (step t o).1 (step t o).2.toStore ∧
        ((step t o).1.failed = true → (step t o).2.toStore = t.toStore) := by
  have hstep : ∀ s o, Linked s → Allowed s o → Linked (step s o).2 := fun s o h ho => (h.simulated o ho).1
  have hsim : ∀ s o, Linked s → Allowed s o → s.toStore.Step o (step s o).1 (step s o).2.toStore :=
    fun s o h ho => (h.simulated o ho).2
  refine ⟨hs.toStore_eq ▸ hrun.refines hstep hsim hs.linked, fun o ho => ?_⟩
  have hlast := hsim t o (hrun.invariant hstep hs.linked) ho
  exact ⟨hlast, Store.step_failed hlast⟩

/-- a file is written and read back through a second descriptor -/
theorem fs_refines_store_copy :
    let a : CStr := ⟨[47, 97], by decide⟩
    let t := runOps step boot [.fsOpen a true, .fsWrite 0 [1, 2, 3], .fsOpen a false, .fsRead 1 2, .fsClose 0]
    ∃ tr, ARun Store.Step Store.empty tr t.toStore := by
  intro a t
  obtain ⟨tr, hrun⟩ : ∃ tr, Run step Allowed boot tr t :=
    Run.of_forall _ fun s => by simp [Allowed, Op.bounded, Op.sparesOpen, a]
  exact ⟨tr, (fs_refines_store fresh_boot hrun).1⟩

end GannetOS.Filesys
