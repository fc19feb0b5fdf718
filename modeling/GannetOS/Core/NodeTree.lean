/-
Binary trees kept in memory cells, with a link from every node to its parent. A cell is a leaf with a label, or a split
with a label and the addresses of two children; both name the address of their parent.
- `Tree`: the tree itself, each node with its address. `Rep h p t` says that the cells of `h` spell out `t` below a parent
  `p`, and `Stored h null root o` that they spell out this one tree (or none) and nothing else.
- `alter k f` replaces the subtree at address `k`, by one that may start at another address. `Rep.alter` says which cells
  have to change for that: those of the subtree, and the link to it. `addrs_alter`, `leaves_alter` and `splits_alter` say
  what becomes of the addresses and the labels.
- `exists_parent`: every node but the root is a child of some split. `Rep.reach` and `Rep.acyclic`: following the child
  links from the root reaches every node, and there are no cycles.
-/
import Mathlib

namespace GannetOS.Core

open Multiset

inductive Tree (ι α β : Type*) where
  | leaf (k : ι) (a : α)
  | split (k : ι) (b : β) (l r : Tree ι α β)

inductive Cell (ι α β : Type*) where
  | leaf (parent : ι) (a : α)
  | split (parent : ι) (b : β) (l r : ι)

variable {ι α β : Type*}

namespace Cell

/-- the cell below another parent -/
def reparent (g : ι) : Cell ι α β → Cell ι α β
  | leaf _ a => leaf g a
  | split _ b l r => split g b l r

/-- the cell with `s` in the place of a child `q` -/
def relink [DecidableEq ι] (q s : ι) : Cell ι α β → Cell ι α β
  | leaf p a => leaf p a
  | split p b l r => split p b (if l = q then s else l) (if r = q then s else r)

@[simp] theorem relink_self [DecidableEq ι] (q : ι) (c : Cell ι α β) : c.relink q q = c := by
  cases c with
  | leaf p a => rfl
  | split p b l r =>
    simp only [relink, split.injEq, true_and]
    exact ⟨by split_ifs with h <;> simp [h], by split_ifs with h <;> simp [h]⟩

@[simp] theorem map_relink_self [DecidableEq ι] (q : ι) (o : Option (Cell ι α β)) : o.map (relink q q) = o := by
  cases o <;> simp

def parent : Cell ι α β → ι
  | leaf p _ => p
  | split p _ _ _ => p

/-- the label, if the cell is a leaf -/
def leafLabel : Cell ι α β → Option α
  | leaf _ a => some a
  | split _ _ _ _ => none

end Cell

/-- the cell at `i` has a child at `j` -/
def Link (h : ι → Option (Cell ι α β)) (i j : ι) : Prop := ∃ p b l r, h i = some (.split p b l r) ∧ (j = l ∨ j = r)

namespace Tree

/-- the address of the root -/
def addr : Tree ι α β → ι
  | leaf k _ => k
  | split k _ _ _ => k

@[simp] theorem addr_leaf (k : ι) (a : α) : (leaf k a : Tree ι α β).addr = k := rfl

@[simp] theorem addr_split (k : ι) (b : β) (l r : Tree ι α β) : (split k b l r).addr = k := rfl

def addrs : Tree ι α β → Multiset ι
  | leaf k _ => {k}
  | split k _ l r => k ::ₘ (l.addrs + r.addrs)

/-- the labels of the leaves -/
def leaves : Tree ι α β → Multiset α
  | leaf _ a => {a}
  | split _ _ l r => l.leaves + r.leaves

/-- the labels of the splits -/
def splits : Tree ι α β → Multiset β
  | leaf _ _ => 0
  | split _ b l r => b ::ₘ (l.splits + r.splits)

/-- the tree without its addresses -/
def forget : Tree ι α β → Tree Unit α β
  | leaf _ a => leaf () a
  | split _ b l r => split () b l.forget r.forget

/-- `u` is a subtree -/
inductive Sub : Tree ι α β → Tree ι α β → Prop
  | refl (t : Tree ι α β) : Sub t t
  | left {u l : Tree ι α β} (k : ι) (b : β) (r : Tree ι α β) (h : Sub u l) : Sub u (split k b l r)
  | right {u r : Tree ι α β} (k : ι) (b : β) (l : Tree ι α β) (h : Sub u r) : Sub u (split k b l r)

theorem addr_mem (t : Tree ι α β) : t.addr ∈ t.addrs := by
  cases t <;> simp [addr, addrs]

theorem card_addrs (t : Tree ι α β) : t.addrs.card + 1 = 2 * t.leaves.card := by
  induction t with
  | leaf k a => rfl
  | split k b l r ihl ihr =>
    simp only [addrs, leaves, card_cons, card_add]
    omega

theorem leaves_forget (t : Tree ι α β) : t.forget.leaves = t.leaves := by
  induction t with
  | leaf k a => rfl
  | split k b l r ihl ihr =>
    rw [forget, leaves, ihl, ihr]
    rfl

theorem exists_sub {t : Tree ι α β} {k : ι} (h : k ∈ t.addrs) : ∃ u, Sub u t ∧ u.addr = k := by
  induction t with
  | leaf j a => exact ⟨_, .refl _, (Multiset.mem_singleton.1 h).symm⟩
  | split j b l r ihl ihr =>
    simp only [addrs, mem_cons, mem_add] at h
    rcases h with rfl | h | h
    · exact ⟨_, .refl _, rfl⟩
    · obtain ⟨u, hu, he⟩ := ihl h
      exact ⟨u, hu.left j b r, he⟩
    · obtain ⟨u, hu, he⟩ := ihr h
      exact ⟨u, hu.right j b l, he⟩

theorem Sub.addrs_le {u t : Tree ι α β} (h : Sub u t) : u.addrs ≤ t.addrs := by
  induction h with
  | refl => exact le_rfl
  | left k b r h ih => exact (ih.trans (Multiset.le_add_right _ _)).trans (le_cons_self _ _)
  | right k b l h ih => exact (ih.trans (Multiset.le_add_left _ _)).trans (le_cons_self _ _)

theorem Sub.addr_mem {u t : Tree ι α β} (h : Sub u t) : u.addr ∈ t.addrs :=
  mem_of_le h.addrs_le (Tree.addr_mem u)

theorem Sub.trans {u v t : Tree ι α β} (huv : Sub u v) (hvt : Sub v t) : Sub u t := by
  induction hvt with
  | refl => exact huv
  | left k b r h ih => exact ih.left k b r
  | right k b l h ih => exact ih.right k b l

/-- the parts of a split whose addresses are all different -/
theorem nodup_split {k : ι} {b : β} {l r : Tree ι α β} (h : (split k b l r).addrs.Nodup) :
    k ∉ l.addrs ∧ k ∉ r.addrs ∧ l.addrs.Nodup ∧ r.addrs.Nodup ∧ Disjoint l.addrs r.addrs := by
  simp only [addrs, nodup_cons, mem_add, not_or, nodup_add] at h
  exact ⟨h.1.1, h.1.2, h.2.1, h.2.2.1, h.2.2.2⟩

/-! ## Replacing a subtree -/

section
variable [DecidableEq ι]

/-- `f` in the place of the subtree at `k` -/
def alter (k : ι) (f : Tree ι α β → Tree ι α β) : Tree ι α β → Tree ι α β
  | leaf j a => if j = k then f (leaf j a) else leaf j a
  | split j b l r => if j = k then f (split j b l r) else split j b (l.alter k f) (r.alter k f)

theorem alter_of_addr {t : Tree ι α β} (f : Tree ι α β → Tree ι α β) : t.alter t.addr f = f t := by
  cases t <;> simp [alter, addr]

theorem alter_of_notMem {k : ι} {t : Tree ι α β} (f : Tree ι α β → Tree ι α β) (h : k ∉ t.addrs) : t.alter k f = t := by
  induction t with
  | leaf j a =>
    have hne : j ≠ k := fun he => h (by simp [addrs, he])
    simp [alter, hne]
  | split j b l r ihl ihr =>
    simp only [addrs, mem_cons, mem_add, not_or] at h
    rw [alter, if_neg (Ne.symm h.1), ihl h.2.1, ihr h.2.2]

/-- a quantity that adds up over the tree changes by what it changes at `k` -/
theorem measure_alter {γ : Type*} [AddCommMonoid γ] (m : Tree ι α β → γ) (own : ι → β → γ)
    (hm : ∀ k b l r, m (split k b l r) = own k b + (m l + m r)) {t u : Tree ι α β} (f : Tree ι α β → Tree ι α β)
    (hn : t.addrs.Nodup) (hu : Sub u t) : m (t.alter u.addr f) + m u = m t + m (f u) := by
  induction hu with
  | refl => rw [alter_of_addr, add_comm]
  | @left l k b r h ih =>
    obtain ⟨hkl, -, hl, -, hdisj⟩ := nodup_split hn
    have hmem := h.addr_mem
    rw [alter, if_neg fun (he : k = u.addr) => hkl (he ▸ hmem),
      alter_of_notMem f (Multiset.disjoint_left.1 hdisj hmem), hm, hm]
    calc own k b + (m (l.alter u.addr f) + m r) + m u = own k b + m r + (m (l.alter u.addr f) + m u) := by abel
      _ = own k b + (m l + m r) + m (f u) := by rw [ih hl]; abel
  | @right r k b l h ih =>
    obtain ⟨-, hkr, -, hr, hdisj⟩ := nodup_split hn
    have hmem := h.addr_mem
    rw [alter, if_neg fun (he : k = u.addr) => hkr (he ▸ hmem),
      alter_of_notMem f (Multiset.disjoint_right.1 hdisj hmem), hm, hm]
    calc own k b + (m l + m (r.alter u.addr f)) + m u = own k b + m l + (m (r.alter u.addr f) + m u) := by abel
      _ = own k b + (m l + m r) + m (f u) := by rw [ih hr]; abel

/-- the new subtree is a subtree of the new tree -/
theorem Sub.alter {t u : Tree ι α β} (f : Tree ι α β → Tree ι α β) (hn : t.addrs.Nodup) (hu : Sub u t) :
    Sub (f u) (t.alter u.addr f) := by
  induction hu with
  | refl =>
    rw [alter_of_addr]
    exact .refl _
  | @left l k b r h ih =>
    obtain ⟨hkl, -, hl, -, -⟩ := nodup_split hn
    rw [Tree.alter, if_neg fun (he : k = u.addr) => hkl (he ▸ h.addr_mem)]
    exact (ih hl).left _ _ _
  | @right r k b l h ih =>
    obtain ⟨-, hkr, -, hr, -⟩ := nodup_split hn
    rw [Tree.alter, if_neg fun (he : k = u.addr) => hkr (he ▸ h.addr_mem)]
    exact (ih hr).right _ _ _

/-- a replaced subtree is replaced again -/
theorem alter_alter {t u : Tree ι α β} (f g : Tree ι α β → Tree ι α β) (hn : t.addrs.Nodup) (hu : Sub u t)
    (ha : (f u).addr = u.addr) : (t.alter u.addr f).alter u.addr g = t.alter u.addr (g ∘ f) := by
  induction hu with
  | refl =>
    rw [alter_of_addr, alter_of_addr, ← ha, alter_of_addr]
    rfl
  | @left l k b r h ih =>
    obtain ⟨hkl, -, hl, -, hdisj⟩ := nodup_split hn
    have hmem := h.addr_mem
    have hk : k ≠ u.addr := fun he => hkl (he ▸ hmem)
    have hr := Multiset.disjoint_left.1 hdisj hmem
    simp only [alter, if_neg hk, alter_of_notMem _ hr, ih hl]
  | @right r k b l h ih =>
    obtain ⟨-, hkr, -, hr, hdisj⟩ := nodup_split hn
    have hmem := h.addr_mem
    have hk : k ≠ u.addr := fun he => hkr (he ▸ hmem)
    have hl := Multiset.disjoint_right.1 hdisj hmem
    simp only [alter, if_neg hk, alter_of_notMem _ hl, ih hr]

/-- a subtree that only moves to other addresses does not change the shape -/
theorem forget_alter {t u : Tree ι α β} (f : Tree ι α β → Tree ι α β) (hn : t.addrs.Nodup) (hu : Sub u t)
    (hf : (f u).forget = u.forget) : (t.alter u.addr f).forget = t.forget := by
  induction hu with
  | refl => rw [alter_of_addr, hf]
  | @left l k b r h ih =>
    obtain ⟨hkl, -, hl, -, hdisj⟩ := nodup_split hn
    have hmem := h.addr_mem
    rw [alter, if_neg fun (he : k = u.addr) => hkl (he ▸ hmem),
      alter_of_notMem f (Multiset.disjoint_left.1 hdisj hmem), forget, ih hl]
    rfl
  | @right r k b l h ih =>
    obtain ⟨-, hkr, -, hr, hdisj⟩ := nodup_split hn
    have hmem := h.addr_mem
    rw [alter, if_neg fun (he : k = u.addr) => hkr (he ▸ hmem),
      alter_of_notMem f (Multiset.disjoint_right.1 hdisj hmem), forget, ih hr]
    rfl

theorem addrs_alter {t u : Tree ι α β} (f : Tree ι α β → Tree ι α β) (hn : t.addrs.Nodup) (hu : Sub u t) :
    (t.alter u.addr f).addrs + u.addrs = t.addrs + (f u).addrs :=
  measure_alter addrs (fun k _ => {k}) (fun _ _ _ _ => rfl) f hn hu

theorem leaves_alter {t u : Tree ι α β} (f : Tree ι α β → Tree ι α β) (hn : t.addrs.Nodup) (hu : Sub u t) :
    (t.alter u.addr f).leaves + u.leaves = t.leaves + (f u).leaves :=
  measure_alter leaves (fun _ _ => 0) (fun _ _ _ _ => (zero_add _).symm) f hn hu

theorem splits_alter {t u : Tree ι α β} (f : Tree ι α β → Tree ι α β) (hn : t.addrs.Nodup) (hu : Sub u t) :
    (t.alter u.addr f).splits + u.splits = t.splits + (f u).splits :=
  measure_alter splits (fun _ b => {b}) (fun _ _ _ _ => rfl) f hn hu

end

/-! ## Trees in memory -/

/-- the cells of `h` spell out the tree below the parent `p` -/
def Rep (h : ι → Option (Cell ι α β)) : ι → Tree ι α β → Prop
  | p, leaf k a => h k = some (.leaf p a)
  | p, split k b l r => h k = some (.split p b l.addr r.addr) ∧ Rep h k l ∧ Rep h k r

/-- memory holds this tree and nothing else -/
structure Holds (h : ι → Option (Cell ι α β)) (null : ι) (t : Tree ι α β) : Prop where
  rep : Rep h null t
  nodup : t.addrs.Nodup
  exact : ∀ k, h k ≠ none ↔ k ∈ t.addrs

/-- memory holds the tree `o` with its root at `root`, or nothing at all -/
def Stored (h : ι → Option (Cell ι α β)) (null root : ι) : Option (Tree ι α β) → Prop
  | none => root = null ∧ ∀ k, h k = none
  | some t => root = t.addr ∧ Holds h null t

variable {h h' : ι → Option (Cell ι α β)} {p : ι} {t u : Tree ι α β}

theorem Rep.congr (ht : Rep h p t) (he : ∀ k ∈ t.addrs, h' k = h k) : Rep h' p t := by
  induction t generalizing p with
  | leaf k a => exact (he k (mem_singleton_self k)).trans ht
  | split k b l r ihl ihr =>
    obtain ⟨hk, hl, hr⟩ := ht
    refine ⟨(he k (mem_cons_self _ _)).trans hk, ihl hl fun j hj => he j ?_, ihr hr fun j hj => he j ?_⟩
    · exact mem_cons_of_mem (Multiset.mem_add.2 (.inl hj))
    · exact mem_cons_of_mem (Multiset.mem_add.2 (.inr hj))

/-- the subtrees of a tree in memory are in memory -/
theorem Rep.sub (ht : Rep h p t) (hu : Sub u t) : ∃ q, Rep h q u := by
  induction hu generalizing p with
  | refl => exact ⟨p, ht⟩
  | left k b r hu ih => exact ih ht.2.1
  | right k b l hu ih => exact ih ht.2.2

/-- the tree in memory below another parent -/
theorem Rep.reparent {g : ι} (ht : Rep h p t) (hn : t.addrs.Nodup) (haddr : h' t.addr = (h t.addr).map (Cell.reparent g))
    (he : ∀ k ∈ t.addrs, k ≠ t.addr → h' k = h k) : Rep h' g t := by
  cases t with
  | leaf k a =>
    have hk : h k = some (.leaf p a) := ht
    show h' k = some (.leaf g a)
    rw [show h' k = _ from haddr, show h (leaf k a : Tree ι α β).addr = h k from rfl, hk]
    rfl
  | split k b l r =>
    obtain ⟨hk, hl, hr⟩ := ht
    obtain ⟨hkl, hkr, -, -, -⟩ := nodup_split hn
    refine ⟨?_, hl.congr fun j hj => he j ?_ ?_, hr.congr fun j hj => he j ?_ ?_⟩
    · rw [show h' k = _ from haddr, show h (split k b l r).addr = h k from rfl, hk]
      rfl
    · exact mem_cons_of_mem (Multiset.mem_add.2 (.inl hj))
    · exact fun (hc : j = k) => hkl (hc ▸ hj)
    · exact mem_cons_of_mem (Multiset.mem_add.2 (.inr hj))
    · exact fun (hc : j = k) => hkr (hc ▸ hj)

/-- in a tree whose addresses are all different, the address tells the subtree -/
theorem Sub.eq_of_addr (hu : Sub u t) (hn : t.addrs.Nodup) (ha : t.addr = u.addr) : t = u := by
  cases hu with
  | refl => rfl
  | left k b r hu =>
    rw [addr_split] at ha
    exact absurd (ha ▸ hu.addr_mem) (nodup_split hn).1
  | right k b l hu =>
    rw [addr_split] at ha
    exact absurd (ha ▸ hu.addr_mem) (nodup_split hn).2.1

/-- every node but the root is a child of some split -/
theorem exists_parent {k : ι} (hk : k ∈ t.addrs) (hne : k ≠ t.addr) :
    ∃ q b l r, Sub (split q b l r) t ∧ (l.addr = k ∨ r.addr = k) := by
  induction t with
  | leaf j a => exact absurd (Multiset.mem_singleton.1 hk) hne
  | split j b l r ihl ihr =>
    simp only [addrs, mem_cons, mem_add] at hk
    rcases hk with rfl | hk | hk
    · exact absurd rfl hne
    · by_cases hl : l.addr = k
      · exact ⟨j, b, l, r, .refl _, .inl hl⟩
      · obtain ⟨q, b', l', r', hsub, hc⟩ := ihl hk (Ne.symm hl)
        exact ⟨q, b', l', r', hsub.left j b r, hc⟩
    · by_cases hr : r.addr = k
      · exact ⟨j, b, l, r, .refl _, .inr hr⟩
      · obtain ⟨q, b', l', r', hsub, hc⟩ := ihr hk (Ne.symm hr)
        exact ⟨q, b', l', r', hsub.right j b l, hc⟩

theorem Rep.leaf_of_cell {q : ι} {a : α} (ht : Rep h p t) (hc : h t.addr = some (.leaf q a)) :
    t = leaf t.addr a ∧ p = q := by
  cases t with
  | leaf k a' =>
    have heq := Option.some.inj ((show h k = _ from ht).symm.trans hc)
    obtain ⟨rfl, rfl⟩ := Cell.leaf.inj heq
    exact ⟨rfl, rfl⟩
  | split k b l r => cases Option.some.inj (ht.1.symm.trans hc)

/-- the labels of the leaves are those of the leaf cells -/
theorem Rep.leaves_eq (ht : Rep h p t) : t.leaves = t.addrs.filterMap fun k => (h k).bind Cell.leafLabel := by
  induction t generalizing p with
  | leaf k a =>
    show {a} = Multiset.filterMap _ (k ::ₘ 0)
    rw [filterMap_cons_some _ _ _ (by rw [show h k = _ from ht]; rfl), filterMap_zero]
    rfl
  | split k b l r ihl ihr =>
    rw [leaves, addrs, filterMap_cons_none _ _ (by rw [ht.1]; rfl), filterMap_add, ← ihl ht.2.1,
      ← ihr ht.2.2]

/-- the subtree at an address, with the cells that spell it out -/
theorem Rep.sub_at {k : ι} (ht : Rep h p t) (hk : k ∈ t.addrs) : ∃ u q, Sub u t ∧ u.addr = k ∧ Rep h q u := by
  obtain ⟨u, hu, rfl⟩ := exists_sub hk
  obtain ⟨q, hq⟩ := ht.sub hu
  exact ⟨u, q, hu, rfl, hq⟩

theorem Sub.splits_le (hu : Sub u t) : u.splits ≤ t.splits := by
  induction hu with
  | refl => exact le_rfl
  | left k b r h ih => exact (ih.trans (Multiset.le_add_right _ _)).trans (le_cons_self _ _)
  | right k b l h ih => exact (ih.trans (Multiset.le_add_left _ _)).trans (le_cons_self _ _)

theorem Rep.split_of_cell {q l r : ι} {b : β} (ht : Rep h p t) (hc : h t.addr = some (.split q b l r)) :
    p = q ∧ ∃ tl tr, t = split t.addr b tl tr ∧ tl.addr = l ∧ tr.addr = r := by
  cases t with
  | leaf k a => cases Option.some.inj ((show h k = _ from ht).symm.trans hc)
  | split k b' tl tr =>
    obtain ⟨rfl, rfl, rfl, rfl⟩ := Cell.split.inj (Option.some.inj (ht.1.symm.trans hc))
    exact ⟨rfl, tl, tr, rfl, rfl, rfl⟩

theorem Rep.ne_none (ht : Rep h p t) : ∀ k ∈ t.addrs, h k ≠ none := by
  intro k hk
  obtain ⟨u, q, -, rfl, hrep⟩ := ht.sub_at hk
  cases u with
  | leaf k a => simp [show h k = _ from hrep]
  | split k b l r => simp [hrep.1]

theorem Rep.cell_parent (ht : Rep h p t) : ∃ c, h t.addr = some c ∧ c.parent = p := by
  cases t with
  | leaf k a => exact ⟨_, ht, rfl⟩
  | split k b l r => exact ⟨_, ht.1, rfl⟩

/-- a child names its parent -/
theorem Rep.parent_of_link {i j : ι} (ht : Rep h p t) (hi : i ∈ t.addrs) (hl : Link h i j) :
    j ∈ t.addrs ∧ ∃ c, h j = some c ∧ c.parent = i := by
  obtain ⟨u, q, hu, rfl, hrep⟩ := ht.sub_at hi
  obtain ⟨q', b, l, r, hc, hj⟩ := hl
  obtain ⟨rfl, tl, tr, hsplit, rfl, rfl⟩ := hrep.split_of_cell hc
  rw [hsplit] at hu hrep
  rcases hj with rfl | rfl
  · exact ⟨(((Sub.refl tl).left _ b tr).trans hu).addr_mem, hrep.2.1.cell_parent⟩
  · exact ⟨(((Sub.refl tr).right _ b tl).trans hu).addr_mem, hrep.2.2.cell_parent⟩

/-- the two children of a split are different -/
theorem Rep.children_ne {i q l r : ι} {b : β} (ht : Rep h p t) (hn : t.addrs.Nodup) (hi : i ∈ t.addrs)
    (hc : h i = some (.split q b l r)) : l ≠ r := by
  obtain ⟨u, q', hu, rfl, hrep⟩ := ht.sub_at hi
  obtain ⟨-, tl, tr, hsplit, rfl, rfl⟩ := hrep.split_of_cell hc
  rw [hsplit] at hu
  have hdisj := (nodup_split (nodup_of_le hu.addrs_le hn)).2.2.2.2
  exact fun he => Multiset.disjoint_left.1 hdisj tl.addr_mem (he ▸ tr.addr_mem)

/-- every node is reached from the root -/
theorem Rep.reach {k : ι} (ht : Rep h p t) (hk : k ∈ t.addrs) : Relation.ReflTransGen (Link h) t.addr k := by
  induction t generalizing p with
  | leaf j a =>
    rw [Multiset.mem_singleton.1 hk]
    exact .refl
  | split j b l r ihl ihr =>
    simp only [addrs, mem_cons, mem_add] at hk
    rcases hk with rfl | hk | hk
    · exact .refl
    · exact .head ⟨p, b, _, _, ht.1, .inl rfl⟩ (ihl ht.2.1 hk)
    · exact .head ⟨p, b, _, _, ht.1, .inr rfl⟩ (ihr ht.2.2 hk)

/-- two subtrees at one address are the same -/
theorem Sub.unique {v : Tree ι α β} (hu : Sub u t) (hv : Sub v t) (hn : t.addrs.Nodup) (ha : u.addr = v.addr) :
    u = v := by
  induction hu with
  | refl => exact hv.eq_of_addr hn ha
  | @left l k b r hu ih =>
    obtain ⟨hkl, -, hl, -, hdisj⟩ := nodup_split hn
    have hmem := hu.addr_mem
    cases hv with
    | refl =>
      rw [addr_split] at ha
      exact absurd (ha ▸ hmem) hkl
    | left _ _ _ hv => exact ih hv hl
    | right _ _ _ hv => exact absurd (ha ▸ hv.addr_mem) (Multiset.disjoint_left.1 hdisj hmem)
  | @right r k b l hu ih =>
    obtain ⟨-, hkr, -, hr, hdisj⟩ := nodup_split hn
    have hmem := hu.addr_mem
    cases hv with
    | refl =>
      rw [addr_split] at ha
      exact absurd (ha ▸ hmem) hkr
    | left _ _ _ hv => exact absurd (ha ▸ hv.addr_mem) (Multiset.disjoint_right.1 hdisj hmem)
    | right _ _ _ hv => exact ih hv hr

/-- links lead to smaller subtrees -/
theorem Rep.link_lt {i j : ι} (ht : Rep h p t) (hu : Sub u t) (hi : u.addr = i)
    (hl : Relation.TransGen (Link h) i j) : ∃ v, Sub v t ∧ v.addr = j ∧ v.addrs.card < u.addrs.card := by
  have hone : ∀ w, Sub w t → ∀ j, Link h w.addr j → ∃ v, Sub v t ∧ v.addr = j ∧ v.addrs.card < w.addrs.card := by
    rintro w hw j ⟨q, b, l, r, hc, hj⟩
    obtain ⟨q', hrep⟩ := ht.sub hw
    obtain ⟨-, tl, tr, hsplit, rfl, rfl⟩ := hrep.split_of_cell hc
    rw [hsplit] at hw ⊢
    rcases hj with rfl | rfl
    · exact ⟨tl, ((Sub.refl tl).left _ b tr).trans hw, rfl, by simp [addrs]⟩
    · exact ⟨tr, ((Sub.refl tr).right _ b tl).trans hw, rfl, by simp [addrs]⟩
  induction hl with
  | single hl => exact hone u hu _ (hi ▸ hl)
  | tail _ hl ih =>
    obtain ⟨v, hv, rfl, hlt⟩ := ih
    obtain ⟨w, hw, he, hlt'⟩ := hone v hv _ hl
    exact ⟨w, hw, he, hlt'.trans hlt⟩

/-- there are no cycles -/
theorem Rep.acyclic {i : ι} (ht : Rep h p t) (hn : t.addrs.Nodup) (hi : i ∈ t.addrs) :
    ¬ Relation.TransGen (Link h) i i := by
  intro hcycle
  obtain ⟨u, hu, rfl⟩ := exists_sub hi
  obtain ⟨v, hv, he, hlt⟩ := ht.link_lt hu rfl hcycle
  rw [hv.unique hu hn he] at hlt
  exact lt_irrefl _ hlt

variable [DecidableEq ι]

theorem addr_alter (k : ι) (f : Tree ι α β → Tree ι α β) :
    (t.alter k f).addr = if t.addr = k then (f t).addr else t.addr := by
  cases t with
  | leaf j a =>
    rw [alter, addr_leaf]
    split_ifs <;> rfl
  | split j b l r =>
    rw [alter, addr_split]
    split_ifs <;> rfl

/-- a link from outside into a tree does not occur in it -/
theorem Rep.map_relink {q s : ι} (ht : Rep h p t) (hq : q ∉ t.addrs) :
    ∀ j ∈ t.addrs, (h j).map (Cell.relink q s) = h j := by
  induction t generalizing p with
  | leaf k a =>
    intro j hj
    rw [Multiset.mem_singleton.1 hj, show h k = _ from ht]
    rfl
  | split k b l r ihl ihr =>
    obtain ⟨hk, hl, hr⟩ := ht
    simp only [addrs, mem_cons, mem_add, not_or] at hq ⊢
    rintro j (rfl | hj | hj)
    · have hlq : l.addr ≠ q := fun he => hq.2.1 (he ▸ l.addr_mem)
      have hrq : r.addr ≠ q := fun he => hq.2.2 (he ▸ r.addr_mem)
      simp [hk, Cell.relink, hlq, hrq]
    · exact ihl hl hq.2.1 j hj
    · exact ihr hr hq.2.2 j hj

/-- **Replacing a subtree in memory.** The cells of the subtree are changed as `f` asks for, and outside of it only the
link to the subtree. -/
theorem Rep.alter {f : Tree ι α β → Tree ι α β} (ht : Rep h p t) (hn : t.addrs.Nodup) (hu : Sub u t)
    (hf : ∀ g, Rep h g u → Rep h' g (f u))
    (he : ∀ j ∈ t.addrs, j ∉ u.addrs → h' j = (h j).map (Cell.relink u.addr (f u).addr)) :
    Rep h' p (t.alter u.addr f) := by
  induction hu generalizing p with
  | refl =>
    rw [alter_of_addr]
    exact hf p ht
  | @left l k b r hu ih =>
    obtain ⟨hk, hl, hr⟩ := ht
    obtain ⟨hkl, -, hnl, -, hdisj⟩ := nodup_split hn
    have hmem := hu.addr_mem
    have hur : u.addr ∉ r.addrs := Multiset.disjoint_left.1 hdisj hmem
    have hout : ∀ j ∈ r.addrs, j ∉ u.addrs := fun j hj hju =>
      Multiset.disjoint_left.1 hdisj (mem_of_le hu.addrs_le hju) hj
    rw [Tree.alter, if_neg fun (hc : k = u.addr) => hkl (hc ▸ hmem), alter_of_notMem f hur]
    refine ⟨?_, ih hl hnl fun j hj => he j (by simp [addrs, hj]), hr.congr fun j hj => ?_⟩
    · rw [he k (by simp [addrs]) fun hc => hkl (mem_of_le hu.addrs_le hc), hk, addr_alter]
      have hrq : r.addr ≠ u.addr := fun hc => hur (hc ▸ r.addr_mem)
      by_cases hc : l.addr = u.addr
      · obtain rfl := hu.eq_of_addr hnl hc
        simp [Cell.relink, hrq]
      · simp [Cell.relink, hrq, hc]
    · rw [he j (by simp [addrs, hj]) (hout j hj), hr.map_relink hur j hj]
  | @right r k b l hu ih =>
    obtain ⟨hk, hl, hr⟩ := ht
    obtain ⟨-, hkr, -, hnr, hdisj⟩ := nodup_split hn
    have hmem := hu.addr_mem
    have hul : u.addr ∉ l.addrs := Multiset.disjoint_right.1 hdisj hmem
    have hout : ∀ j ∈ l.addrs, j ∉ u.addrs := fun j hj hju =>
      Multiset.disjoint_left.1 hdisj hj (mem_of_le hu.addrs_le hju)
    rw [Tree.alter, if_neg fun (hc : k = u.addr) => hkr (hc ▸ hmem), alter_of_notMem f hul]
    refine ⟨?_, hl.congr fun j hj => ?_, ih hr hnr fun j hj => he j (by simp [addrs, hj])⟩
    · rw [he k (by simp [addrs]) fun hc => hkr (mem_of_le hu.addrs_le hc), hk, addr_alter]
      have hlq : l.addr ≠ u.addr := fun hc => hul (hc ▸ l.addr_mem)
      by_cases hc : r.addr = u.addr
      · obtain rfl := hu.eq_of_addr hnr hc
        simp [Cell.relink, hlq]
      · simp [Cell.relink, hlq, hc]
    · rw [he j (by simp [addrs, hj]) (hout j hj), hl.map_relink hul j hj]

/-- **Replacing a subtree, for memory that holds one tree.** The new subtree uses addresses of the old one and addresses
that were free; what it does not use any more is free afterwards. -/
theorem Holds.alter {null : ι} {f : Tree ι α β → Tree ι α β} (H : Holds h null t) (hu : Sub u t)
    (hf : ∀ g, Rep h g u → Rep h' g (f u))
    (he : ∀ j ∈ t.addrs, j ∉ u.addrs → h' j = (h j).map (Cell.relink u.addr (f u).addr)) (hn : (f u).addrs.Nodup)
    (hfresh : ∀ j ∈ (f u).addrs, j ∈ u.addrs ∨ j ∉ t.addrs)
    (hfree : ∀ j, j ∉ (f u).addrs → (j ∈ u.addrs ∨ j ∉ t.addrs) → h' j = none) : Holds h' null (t.alter u.addr f) := by
  have hsum := addrs_alter f H.nodup hu
  have hrep := H.rep.alter H.nodup hu hf he
  have hcount : ∀ j, (t.alter u.addr f).addrs.count j + u.addrs.count j = t.addrs.count j + (f u).addrs.count j := by
    intro j
    rw [← count_add, hsum, count_add]
  have hone : ∀ j, u.addrs.count j ≤ t.addrs.count j := fun j => count_le_of_le j hu.addrs_le
  have ht : ∀ j, t.addrs.count j ≤ 1 := Multiset.nodup_iff_count_le_one.1 H.nodup
  have hfu : ∀ j, (f u).addrs.count j ≤ 1 := Multiset.nodup_iff_count_le_one.1 hn
  have hnew : ∀ j, 0 < (f u).addrs.count j → 0 < u.addrs.count j ∨ t.addrs.count j = 0 := by
    intro j hj
    rcases hfresh j (Multiset.count_pos.1 hj) with h | h
    · exact .inl (Multiset.count_pos.2 h)
    · exact .inr (Multiset.count_eq_zero.2 h)
  refine ⟨hrep, Multiset.nodup_iff_count_le_one.2 fun j => ?_, fun j => ⟨fun hj => ?_, hrep.ne_none j⟩⟩
  · have := hcount j
    have := ht j
    have := hfu j
    have := hnew j
    omega
  · -- an address that is in use afterwards is in the new subtree, or was in the tree outside the old one
    by_contra hout
    have hzero := Multiset.count_eq_zero.2 hout
    have hsum := hcount j
    have hnf : j ∉ (f u).addrs := fun hj' => by
      have := Multiset.count_pos.2 hj'
      have := hone j
      omega
    refine hj (hfree j hnf ?_)
    by_contra hc
    rw [not_or, not_not] at hc
    have := Multiset.count_eq_zero.2 hc.1
    have := Multiset.count_pos.2 hc.2
    omega

/-! ## Taking a leaf out -/

/-- memory after the sibling at `s` took the place of the parent `q` of the leaf at `k`, below `g` -/
def splice (h : ι → Option (Cell ι α β)) (k q s g : ι) : ι → Option (Cell ι α β) :=
  Function.update (Function.update (Function.update (Function.update h s ((h s).map (Cell.reparent g))) g
    ((h g).map (Cell.relink q s))) k none) q none

omit [DecidableEq ι] in
/-- a subtree is the whole tree, or its parent is a split outside of it that links to it -/
theorem Holds.parent_cases {null g : ι} (H : Holds h null t) (hu : Sub u t) (hg : Rep h g u) :
    t = u ∧ g = null ∨ t.addr ≠ u.addr ∧ g ∈ t.addrs ∧ g ∉ u.addrs ∧ Link h g u.addr := by
  by_cases hroot : t.addr = u.addr
  · obtain rfl := hu.eq_of_addr H.nodup hroot
    obtain ⟨c, hc, rfl⟩ := hg.cell_parent
    obtain ⟨c', hc', rfl⟩ := H.rep.cell_parent
    obtain rfl := Option.some.inj (hc.symm.trans hc')
    exact .inl ⟨rfl, rfl⟩
  · obtain ⟨q, b, l, r, hsub, hc⟩ := exists_parent hu.addr_mem (Ne.symm hroot)
    obtain ⟨p, hrep⟩ := H.rep.sub hsub
    have hlink : Link h q u.addr := ⟨p, b, _, _, hrep.1, hc.imp Eq.symm Eq.symm⟩
    have hq := hsub.addr_mem
    obtain ⟨c, hcell, rfl⟩ := (H.rep.parent_of_link hq hlink).2
    obtain ⟨c', hcell', rfl⟩ := hg.cell_parent
    obtain rfl := Option.some.inj (hcell.symm.trans hcell')
    exact .inr ⟨hroot, hq, fun hin =>
      H.rep.acyclic H.nodup hu.addr_mem (Relation.TransGen.tail' (hg.reach hin) hlink), hlink⟩

/-- only the parent links to a node -/
theorem Holds.map_relink {null g j : ι} (H : Holds h null t) (hg : Rep h g u) (s : ι) (hj : j ∈ t.addrs) (hjg : j ≠ g) :
    (h j).map (Cell.relink u.addr s) = h j := by
  obtain ⟨c', hcell', rfl⟩ := hg.cell_parent
  have hno : ¬ Link h j u.addr := by
    intro hl
    obtain ⟨c, hcell, hpar⟩ := (H.rep.parent_of_link hj hl).2
    obtain rfl := Option.some.inj (hcell.symm.trans hcell')
    exact hjg hpar.symm
  cases hc : h j with
  | none => rfl
  | some c =>
    cases c with
    | leaf p a => rfl
    | split p b l r =>
      have hl : l ≠ u.addr := fun he => hno ⟨p, b, l, r, hc, .inl he.symm⟩
      have hr : r ≠ u.addr := fun he => hno ⟨p, b, l, r, hc, .inr he.symm⟩
      simp [Cell.relink, hl, hr]

/-- **Taking a leaf out of the tree in memory.** -/
theorem Holds.splice {null k q g : ι} {b : β} {a : α} {l r sib : Tree ι α β} (H : Holds h null t)
    (hnull : h null = none) (hu : Sub (split q b l r) t) (hsib : l = leaf k a ∧ r = sib ∨ r = leaf k a ∧ l = sib)
    (hg : Rep h g (split q b l r)) : Holds (splice h k q sib.addr g) null (t.alter q fun _ => sib) := by
  have hnu := nodup_of_le hu.addrs_le H.nodup
  obtain ⟨hql, hqr, hnl, hnr, hdisj⟩ := nodup_split hnu
  -- the sibling, apart from the leaf and their parent
  have hsrep : Rep h q sib := by
    rcases hsib with ⟨-, rfl⟩ | ⟨-, rfl⟩
    exacts [hg.2.2, hg.2.1]
  have hsn : sib.addrs.Nodup := by
    rcases hsib with ⟨-, rfl⟩ | ⟨-, rfl⟩
    exacts [hnr, hnl]
  have hks : k ∉ sib.addrs := by
    rcases hsib with ⟨rfl, rfl⟩ | ⟨rfl, rfl⟩
    · exact Multiset.disjoint_left.1 hdisj (mem_singleton_self k)
    · exact fun h => Multiset.disjoint_left.1 hdisj h (mem_singleton_self k)
  have hqs : q ∉ sib.addrs := by
    rcases hsib with ⟨-, rfl⟩ | ⟨-, rfl⟩
    exacts [hqr, hql]
  have hmem : ∀ j, j ∈ (split q b l r).addrs ↔ j = q ∨ j = k ∨ j ∈ sib.addrs := by
    rcases hsib with ⟨rfl, rfl⟩ | ⟨rfl, rfl⟩
    · simp [addrs]
    · simp [addrs, or_comm]
  have hgu : g ∉ (split q b l r).addrs ∧ (g ∉ t.addrs → h g = none) := by
    rcases H.parent_cases hu hg with ⟨-, rfl⟩ | ⟨-, hgt, hgu, -⟩
    · exact ⟨fun hin => hg.ne_none _ hin hnull, fun _ => hnull⟩
    · exact ⟨hgu, fun hn => absurd hgt hn⟩
  have hgs : g ≠ q ∧ g ≠ k ∧ g ∉ sib.addrs := by
    rw [hmem, not_or, not_or] at hgu
    exact hgu.1
  have hsg : sib.addr ≠ g := fun he => hgs.2.2 (he ▸ sib.addr_mem)
  -- what the change leaves alone
  have hother : ∀ j, j ≠ q → j ≠ k → j ≠ g → j ≠ sib.addr → Tree.splice h k q sib.addr g j = h j := by
    intro j h1 h2 h3 h4
    simp [Tree.splice, h1, h2, h3, h4]
  have hfree : ∀ j, j = q ∨ j = k → Tree.splice h k q sib.addr g j = none := by
    rintro j (rfl | rfl)
    · simp [Tree.splice]
    · by_cases hj : j = q
      · simp [Tree.splice, hj]
      · simp [Tree.splice, hj]
  refine H.alter hu (fun g' hg' => ?_) (fun j hj hju => ?_) hsn (fun j hj => .inl ((hmem j).2 (.inr (.inr hj))))
    fun j hj hout => ?_
  · obtain rfl : g' = g := by
      obtain ⟨rfl, -⟩ := Cell.split.inj (Option.some.inj (hg'.1.symm.trans hg.1))
      rfl
    refine hsrep.reparent hsn ?_ fun j hj hne => hother j ?_ ?_ ?_ hne
    · have h1 : sib.addr ≠ q := fun he => hqs (he ▸ sib.addr_mem)
      have h2 : sib.addr ≠ k := fun he => hks (he ▸ sib.addr_mem)
      simp [Tree.splice, h1, h2, hsg]
    · exact fun he => hqs (he ▸ hj)
    · exact fun he => hks (he ▸ hj)
    · exact fun he => hgs.2.2 (he ▸ hj)
  · rw [hmem, not_or, not_or] at hju
    by_cases hjg : j = g
    · subst hjg
      simp [Tree.splice, hgs.1, hgs.2.1]
    · have hjs : j ≠ sib.addr := fun he => hju.2.2 (he ▸ sib.addr_mem)
      rw [hother j hju.1 hju.2.1 hjg hjs, H.map_relink hg _ hj hjg]
  · rcases hout with hju | hjt
    · rw [hmem] at hju
      exact hfree j (hju.imp_right fun hc => hc.resolve_right hj)
    · have hjn : h j = none := by
        by_contra hne
        exact hjt ((H.exact j).1 hne)
      by_cases hqk : j = q ∨ j = k
      · exact hfree j hqk
      · rw [not_or] at hqk
        by_cases hjg : j = g
        · subst hjg
          simp [Tree.splice, hqk.1, hqk.2, hjn]
        · have hjs : j ≠ sib.addr := fun he => hj (he ▸ sib.addr_mem)
          rw [hother j hqk.1 hqk.2 hjg hjs, hjn]

end Tree

end GannetOS.Core
