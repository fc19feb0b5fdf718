/-
Little-endian 32-bit words: the four bytes of a word and the word four bytes stand for. The one fact the record formats
need is the round trip `le32_byteOf`.
-/
import Mathlib

namespace GannetOS.Core

open List

/-- byte `k` of a word, the least significant first -/
def byteOf (x : UInt32) (k : ℕ) : UInt8 := UInt8.ofNat (x.toNat / 256 ^ k)

/-- the word whose four bytes, the least significant first, are given -/
def le32 (a b c d : UInt8) : UInt32 :=
  UInt32.ofNat (a.toNat + 256 * b.toNat + 65536 * c.toNat + 16777216 * d.toNat)

theorem le32_byteOf (x : UInt32) : le32 (byteOf x 0) (byteOf x 1) (byteOf x 2) (byteOf x 3) = x := by
  apply UInt32.toNat_inj.1
  have hx : x.toNat < 4294967296 := x.toNat_lt
  simp only [le32, byteOf, UInt32.toNat_ofNat', UInt8.toNat_ofNat']
  omega

/-- `data` written over `l` at offset `off`, at the end beyond it -/
def overwrite {α : Type*} (l : List α) (off : ℕ) (data : List α) : List α :=
  l.take off ++ data ++ l.drop (off + data.length)

theorem overwrite_getElem? {α : Type*} {l data : List α} {off : ℕ} (h : off ≤ l.length) (k : ℕ) :
    (overwrite l off data)[k]? = if off ≤ k ∧ k < off + data.length then data[k - off]? else l[k]? := by
  have hlen : (l.take off).length = off := length_take_of_le h
  unfold overwrite
  by_cases h1 : k < off
  · rw [append_assoc, getElem?_append_left (by omega), if_neg (by omega), getElem?_take_of_lt h1]
  · by_cases h2 : k < off + data.length
    · rw [if_pos ⟨by omega, h2⟩, getElem?_append_left (by rw [length_append]; omega),
        getElem?_append_right (by omega), hlen]
    · rw [if_neg (by omega), getElem?_append_right (by rw [length_append]; omega), getElem?_drop,
        length_append, hlen]
      congr 1
      omega

end GannetOS.Core
