/-
The abstract store: what the filesystem is for.

A store maps every existing path to a directory or a byte string, and every open descriptor to a path and an offset.
There are no slots, sectors, bitmaps or stored names. `Store.step` is the meaning of the calls. It is a function of the
store, the call and one bit `room`, which is only looked at when a write makes a file longer: whether the disk has room is
not a property of the store. At most 512 paths can exist.
-/
import GannetOS.Filesys.Machine

namespace GannetOS.Filesys

open GannetOS.Core

/-- a directory or a file with its content -/
inductive Node where
  | dir
  | file (bytes : List UInt8)

@[ext] structure Store where
  node : CStr → Option Node
  desc : Fin 8 → Option (CStr × ℕ)

def parentPath (p : CStr) : CStr := ⟨parentOf p.bytes, parentOf_nulFree p.nulFree⟩

def rootPath : CStr := ⟨[slash], by decide⟩

namespace Store

/-- the root directory, nothing else, nothing open -/
noncomputable def empty : Store where
  node p := open Classical in if p = rootPath then some .dir else none
  desc _ := none

noncomputable def set (st : Store) (p : CStr) (n : Option Node) : Store :=
  { st with node := open Classical in Function.update st.node p n }

def setDesc (st : Store) (k : Fin 8) (d : Option (CStr × ℕ)) : Store := { st with desc := Function.update st.desc k d }

/-- the store without the directory `p` and everything below it -/
noncomputable def prune (st : Store) (p : CStr) : Store :=
  { st with node := fun q => open Classical in if under p.bytes q.bytes then none else st.node q }

theorem prune_under {st : Store} {p q : CStr} (h : under p.bytes q.bytes) : (st.prune p).node q = none := if_pos h

theorem prune_apart {st : Store} {p q : CStr} (h : ¬ under p.bytes q.bytes) : (st.prune p).node q = st.node q := if_neg h

/-- all 512 places are taken -/
def full (st : Store) : Prop := {p | st.node p ≠ none}.ncard = 512

/-- the first closed descriptor -/
def closed (st : Store) : Option (Fin 8) := (List.finRange 8).find? fun k => (st.desc k).isNone

/-- the descriptor behind a number, with its path, its offset and the content of its file -/
def opened (st : Store) (fd : ℤ) : Option (Fin 8 × CStr × ℕ × List UInt8) :=
  match fdSlot fd with
  | none => none
  | some k =>
    match st.desc k with
    | none => none
    | some (p, off) =>
      match st.node p with
      | some (.file bytes) => some (k, p, off, bytes)
      | _ => none

/-- `p` does not exist, its parent is a directory, and there is a place for it -/
def creatable (st : Store) (p : CStr) : Prop := st.node p = none ∧ st.node (parentPath p) = some .dir ∧ ¬ st.full

/-- the meaning of the calls; `fs_init` on a formatted disk closes all descriptors -/
noncomputable def step (st : Store) (room : Bool) (o : Op) : Res × Store := open Classical in
  match o with
  | .fsInit => (.rc true, { st with desc := fun _ => none })
  | .fsOpen p create =>
    match st.closed with
    | none => (.fd none, st)
    | some k =>
      match st.node p with
      | some .dir => (.fd none, st)
      | some (.file _) => (.fd (some k), st.setDesc k (some (p, 0)))
      | none =>
        if create = true ∧ st.creatable p then
          (.fd (some k), (st.set p (some (.file []))).setDesc k (some (p, 0)))
        else (.fd none, st)
  | .fsRead fd len =>
    match st.opened fd with
    | none => (.data none, st)
    | some (k, p, off, bytes) =>
      (.data (some ((bytes.drop off).take len.toNat)),
        st.setDesc k (some (p, off + min len.toNat (bytes.length - off))))
  | .fsWrite fd data =>
    match st.opened fd with
    | none => (.count none, st)
    | some (k, p, off, bytes) =>
      if off + data.length ≤ bytes.length ∨ room = true then
        (.count (some data.length),
          (st.set p (some (.file (overwrite bytes off data)))).setDesc k (some (p, off + data.length)))
      else (.count none, st)
  | .fsClose fd =>
    match fdSlot fd with
    | none => (.void, st)
    | some k => (.void, st.setDesc k none)
  | .fsMkdir p => if st.creatable p then (.rc true, st.set p (some .dir)) else (.rc false, st)
  | .fsRmdir p =>
    if p ≠ rootPath ∧ st.node p = some .dir ∧ ∀ q, q ≠ p → parentPath q = p → st.node q = none then
      (.rc true, st.set p none)
    else (.rc false, st)
  | .fsRrmdr p => if p ≠ rootPath ∧ st.node p = some .dir then (.rc true, st.prune p) else (.rc false, st)
  | .fsDelete p =>
    match st.node p with
    | some (.file _) => (.rc true, st.set p none)
    | _ => (.rc false, st)

/-- a step of the store, with or without room on the disk -/
def Step (st : Store) (o : Op) (r : Res) (st' : Store) : Prop := ∃ room, (r, st') = st.step room o

/-- a call that returns -1 leaves the store as it was -/
theorem step_failed {st st' : Store} {o : Op} {r : Res} (h : st.Step o r st') (hr : r.failed = true) : st' = st := by
  obtain ⟨room, h⟩ := h
  cases o with
  | fsInit => simp [step] at h; simp [h, Res.failed] at hr
  | fsOpen p create =>
    simp only [step] at h
    split at h
    · exact (Prod.mk.inj h).2
    · split at h
      · exact (Prod.mk.inj h).2
      · obtain ⟨rfl, -⟩ := Prod.mk.inj h
        cases hr
      · split_ifs at h
        · obtain ⟨rfl, -⟩ := Prod.mk.inj h
          cases hr
        · exact (Prod.mk.inj h).2
  | fsRead fd len =>
    simp only [step] at h
    split at h
    · exact (Prod.mk.inj h).2
    · obtain ⟨rfl, -⟩ := Prod.mk.inj h
      cases hr
  | fsWrite fd data =>
    simp only [step] at h
    split at h
    · exact (Prod.mk.inj h).2
    · split_ifs at h
      · obtain ⟨rfl, -⟩ := Prod.mk.inj h
        cases hr
      · exact (Prod.mk.inj h).2
  | fsClose fd =>
    simp only [step] at h
    split at h <;> obtain ⟨rfl, -⟩ := Prod.mk.inj h <;> cases hr
  | fsMkdir p | fsRmdir p | fsRrmdr p =>
    simp only [step] at h
    split_ifs at h
    · obtain ⟨rfl, -⟩ := Prod.mk.inj h
      cases hr
    · exact (Prod.mk.inj h).2
  | fsDelete p =>
    simp only [step] at h
    split at h
    · obtain ⟨rfl, -⟩ := Prod.mk.inj h
      cases hr
    · exact (Prod.mk.inj h).2

end Store

end GannetOS.Filesys
