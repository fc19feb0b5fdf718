/-
How a program gets its arguments (kernel/proc/loader.c): `stage_argv` copies the strings into argv_stage_area, and `try_exec`
copies them on to the bottom page of the program's stack and stores a pointer to each behind them. Both are modelled as the
writes they make, in order, over any argc, any strings and any earlier contents of the area and the page.

- `argv_delivered`: all writes stay in the area, the first 2048 bytes of the page and the pointer slots, the strings do not
  overlap and the program sees each argument, cut off at worst, exactly if the arguments before the last one, with their
  NULs, leave a byte of the area free;
- `argv_past_area`: a first argument that fills the area, and a second.

`off` is an int in the source; it stays below 2048 + 17, so a natural number does. Offsets from 2048 on are whatever lies
behind the array or the page's string part.
-/
import GannetOS.Core.Bytes
import GannetOS.Core.CString
import GannetOS.Core.Writes
import GannetOS.Proc.Task

namespace GannetOS.Proc

open GannetOS.Core List

def appArgvMax : ℤ := 16

def appArgvAreaSize : ℕ := 2048

/-- the scan of an argument, with `l` the rest of it behind the first `len` bytes -/
def stageLen (off : ℕ) : List UInt8 → ℕ → ℕ
  | [], len => len
  | _ :: l, len => if off + len + 1 < appArgvAreaSize then stageLen off l (len + 1) else len

/-- argv_stage_off[i] and argv_stage_len[i] -/
structure ArgSlot where
  off : ℕ
  len : ℕ

/-- what `stage_argv` has stored: the two arrays, and the writes to argv_stage_area -/
structure ArgStage where
  slots : List ArgSlot
  writes : List (ℕ × UInt8)

def stageLoop : ℕ → List CStr → ArgStage
  | _, [] => ⟨[], []⟩
  | off, a :: args =>
    let len := stageLen off a.bytes 0
    let rest := stageLoop (off + len + 1) args
    ⟨⟨off, len⟩ :: rest.slots, writesAt off (a.bytes.take len) ++ rest.writes⟩

def stageArgv (argc : ℤ) (argv : ℕ → CStr) : ℤ × ArgStage :=
  let argc := if argc > appArgvMax then appArgvMax else argc
  (argc, stageLoop 0 ((List.range argc.toNat).map argv))

/-- `argv_ptrs_dst[i] = APP_STACK_VADDR + off` -/
def pointerWrites (i off : ℕ) : List (ℕ × UInt8) :=
  (List.range 4).map fun k => (appArgvAreaSize + 4 * i + k, byteOf (appStackVaddr + UInt32.ofNat off) k)

/-- the loop of `try_exec` from argument `i` on -/
def argvLoop (area : ℕ → UInt8) : ℕ → List ArgSlot → List (ℕ × UInt8)
  | _, [] => []
  | i, e :: es => copyRange area e.off (e.len + 1) ++ (pointerWrites i e.off ++ argvLoop area (i + 1) es)

/-- the writes to the bottom stack page, where argv_stage_area held `area` before `stage_argv` -/
def pageWrites (argc : ℤ) (argv : ℕ → CStr) (area : ℕ → UInt8) : List (ℕ × UInt8) :=
  let staged := (stageArgv argc argv).2
  argvLoop (stored staged.writes area) 0 staged.slots

/-! ## What the program should find -/

/-- the string and its NUL are at `off` -/
def HoldsStr (mem : ℕ → UInt8) (off : ℕ) (l : List UInt8) : Prop := ∀ j ≤ l.length, mem (off + j) = l.getD j 0

/-- `argv[i]` as the program reads it -/
def argPointer (page : ℕ → UInt8) (i : ℕ) : UInt32 :=
  let a := appArgvAreaSize + 4 * i
  le32 (page a) (page (a + 1)) (page (a + 2)) (page (a + 3))

/-- the bytes of the arguments with their NULs -/
def argBytes (args : List CStr) : ℕ := (args.map fun a => a.bytes.length + 1).sum

/-- the arguments arrive: `area` and `page` are argv_stage_area and the bottom stack page before -/
structure Delivered (argc : ℤ) (argv : ℕ → CStr) (area page : ℕ → UInt8) : Prop where
  inArea : ∀ w ∈ (stageArgv argc argv).2.writes, w.1 < 2048
  inPage : ∀ w ∈ pageWrites argc argv area, w.1 < 2048 + 4 * (min argc 16).toNat
  apart : (stageArgv argc argv).2.slots.Pairwise fun e e' => e.off + e.len < e'.off
  count : (stageArgv argc argv).1 = min argc 16 ∧ (stageArgv argc argv).2.slots.length = (min argc 16).toNat
  args : ∀ i < (min argc 16).toNat, ∃ off l, l <+: (argv i).bytes ∧ off + l.length < 2048 ∧
    argPointer (stored (pageWrites argc argv area) page) i = appStackVaddr + UInt32.ofNat off ∧
    HoldsStr (stored (pageWrites argc argv area) page) off l ∧
    (∑ k ∈ Finset.range (min argc 16).toNat, ((argv k).bytes.length + 1) ≤ 2048 → l = (argv i).bytes)

/-! ## Staging -/

theorem stageLen_eq (off : ℕ) (l : List UInt8) (len : ℕ) :
    stageLen off l len = len + min l.length (2047 - off - len) := by
  induction l generalizing len with
  | nil => simp [stageLen]
  | cons c l ih =>
    rw [stageLen, ih, appArgvAreaSize, length_cons]
    split_ifs <;> omega

/-- the next argument, cut to the bytes before the last of the area -/
@[simp] theorem stageLoop_cons (off : ℕ) (a : CStr) (args : List CStr) :
    stageLoop off (a :: args) =
      let len := min a.bytes.length (2047 - off)
      ⟨⟨off, len⟩ :: (stageLoop (off + len + 1) args).slots,
        writesAt off (a.bytes.take len) ++ (stageLoop (off + len + 1) args).writes⟩ := by
  rw [stageLoop, stageLen_eq, Nat.zero_add, Nat.sub_zero]

@[simp] theorem argBytes_cons (a : CStr) (args : List CStr) :
    argBytes (a :: args) = a.bytes.length + 1 + argBytes args := sum_cons

/-- the slots follow each other without a gap -/
theorem stageLoop_slots (args : List CStr) (off : ℕ) :
    (stageLoop off args).slots.length = args.length ∧ (∀ e ∈ (stageLoop off args).slots, off ≤ e.off) ∧
      (stageLoop off args).slots.Pairwise fun e e' => e.off + e.len < e'.off := by
  induction args generalizing off with
  | nil => exact ⟨rfl, fun e he => absurd he not_mem_nil, List.Pairwise.nil⟩
  | cons a args ih =>
    rw [stageLoop_cons]
    obtain ⟨hlength, hle, hpair⟩ := ih (off + min a.bytes.length (2047 - off) + 1)
    refine ⟨congrArg (· + 1) hlength, fun e he => ?_, hpair.cons fun e he => hle e he⟩
    rcases List.mem_cons.1 he with rfl | he
    · exact le_rfl
    · have := hle e he
      omega

/-- nothing is written below the first slot -/
theorem stageLoop_from {args : List CStr} {off : ℕ} {w : ℕ × UInt8} (h : w ∈ (stageLoop off args).writes) : off ≤ w.1 := by
  induction args generalizing off with
  | nil => exact absurd h not_mem_nil
  | cons a args ih =>
    rw [stageLoop_cons] at h
    rcases List.mem_append.1 h with h | h
    · exact ((writesAt_range _ _).2 w h).1
    · have := ih h
      omega

/-- the terminator of the last argument is the byte that may lie behind the area -/
theorem stageLoop_bounds (args : List CStr) (off : ℕ) :
    (∀ w ∈ (stageLoop off args).writes, w.1 < 2048) ↔ args = [] ∨ off + argBytes args.dropLast < 2048 := by
  induction args generalizing off with
  | nil => exact iff_of_true (fun w hw => absurd hw not_mem_nil) (.inl rfl)
  | cons a args ih =>
    have hfirst : (∀ w ∈ writesAt off (a.bytes.take (min a.bytes.length (2047 - off))), w.1 < 2048) ↔ off < 2048 := by
      obtain ⟨hlast, hrange⟩ := writesAt_range (a.bytes.take (min a.bytes.length (2047 - off))) off
      rw [length_take] at hlast hrange
      refine ⟨fun h => ?_, fun h w hw => ?_⟩
      · have := h _ hlast
        omega
      · have := hrange w hw
        omega
    rw [stageLoop_cons, forall_mem_append, hfirst, ih]
    cases args with
    | nil => simp [argBytes]
    | cons b args =>
      rw [dropLast_cons_cons, argBytes_cons]
      simp only [cons_ne_nil, false_or]
      omega

/-- the area holds every argument's bytes up to its slot's length -/
theorem stageLoop_holds (args : List CStr) (off : ℕ) (area : ℕ → UInt8) :
    List.Forall₂ (fun a e => HoldsStr (stored (stageLoop off args).writes area) e.off (a.bytes.take e.len)) args
      (stageLoop off args).slots := by
  induction args generalizing off area with
  | nil => exact .nil
  | cons a args ih =>
    rw [stageLoop_cons]
    simp only [stored_append]
    refine .cons (fun j hj => ?_) (ih _ _)
    dsimp only at hj ⊢
    rw [length_take] at hj
    -- the later arguments are staged behind this one
    rw [stored_frame fun w hw => ?_, stored_writesAt, length_take, if_pos ⟨by omega, by omega⟩,
      Nat.add_sub_cancel_left]
    have := stageLoop_from hw
    omega

/-- where the area is not overrun, only the last argument may be cut, and it ends within the area -/
theorem stageLoop_fits {args : List CStr} {off : ℕ} (h : args = [] ∨ off + argBytes args.dropLast < 2048) :
    List.Forall₂ (fun a e => e.off + e.len < 2048 ∧ (off + argBytes args ≤ 2048 → e.len = a.bytes.length)) args
      (stageLoop off args).slots := by
  induction args generalizing off with
  | nil => exact .nil
  | cons a args ih =>
    have hlt := h.resolve_left (cons_ne_nil _ _)
    rw [stageLoop_cons]
    refine .cons ⟨show off + min _ _ < 2048 by omega, fun hfit => ?_⟩ ?_
    · rw [argBytes_cons] at hfit
      show min _ _ = _
      omega
    · cases args with
      | nil => exact .nil
      | cons b args =>
        rw [dropLast_cons_cons, argBytes_cons] at hlt
        refine (ih (.inr (by omega))).imp fun a' e he => ⟨he.1, fun hfit => he.2 ?_⟩
        rw [argBytes_cons] at hfit
        omega

/-! ## The copy to the stack page -/

theorem pointerWrites_range {i off : ℕ} {w : ℕ × UInt8} (h : w ∈ pointerWrites i off) :
    2048 + 4 * i ≤ w.1 ∧ w.1 < 2048 + 4 * (i + 1) := by
  obtain ⟨k, hk, rfl⟩ := List.mem_map.1 h
  have := List.mem_range.1 hk
  show 2048 + 4 * i ≤ 2048 + 4 * i + k ∧ 2048 + 4 * i + k < _
  omega

theorem argvLoop_range {area : ℕ → UInt8} {es : List ArgSlot} {i : ℕ} {w : ℕ × UInt8} (h : w ∈ argvLoop area i es) :
    (∃ e ∈ es, e.off ≤ w.1 ∧ w.1 ≤ e.off + e.len) ∨ 2048 + 4 * i ≤ w.1 ∧ w.1 < 2048 + 4 * (i + es.length) := by
  induction es generalizing i with
  | nil => exact absurd h not_mem_nil
  | cons e es ih =>
    rw [length_cons]
    rcases List.mem_append.1 h with h | h
    · have := copyRange_range h
      exact .inl ⟨e, mem_cons_self, by omega, by omega⟩
    · rcases List.mem_append.1 h with h | h
      · have := pointerWrites_range h
        omega
      · rcases ih h with ⟨e', he', hw⟩ | hw
        · exact .inl ⟨e', mem_cons_of_mem e he', hw⟩
        · omega

theorem argPointer_written (i off : ℕ) (page : ℕ → UInt8) :
    argPointer (stored (pointerWrites i off) page) i = appStackVaddr + UInt32.ofNat off := by
  simp [argPointer, pointerWrites, stored, range_succ, le32_byteOf]

/-- slots that lie apart within the area keep their strings, and each gets its pointer -/
theorem argvLoop_holds {es : List ArgSlot} (hin : ∀ e ∈ es, e.off + e.len < 2048)
    (hapart : es.Pairwise fun e e' => e.off + e.len < e'.off) (i : ℕ) (area page : ℕ → UInt8) {k : ℕ} {e : ArgSlot}
    (hk : es[k]? = some e) :
    (∀ j ≤ e.len, stored (argvLoop area i es) page (e.off + j) = area (e.off + j)) ∧
      argPointer (stored (argvLoop area i es) page) (i + k) = appStackVaddr + UInt32.ofNat e.off := by
  induction es generalizing i page k with
  | nil => exact absurd hk (by simp)
  | cons e₀ es ih =>
    obtain ⟨hbefore, hapart⟩ := List.pairwise_cons.1 hapart
    have hin' (e' : ArgSlot) (he' : e' ∈ es) : e'.off + e'.len < 2048 := hin e' (mem_cons_of_mem e₀ he')
    rw [argvLoop, stored_append, stored_append]
    cases k with
    | succ k =>
      rw [show i + (k + 1) = i + 1 + k by omega]
      exact ih hin' hapart (i + 1) _ hk
    | zero =>
      obtain rfl : e₀ = e := by simpa using hk
      have hlast := hin e₀ mem_cons_self
      -- the rest of the loop writes behind this string, and to later pointers
      have hrest {n : ℕ} (hn : n ≤ e₀.off + e₀.len ∨ 2048 ≤ n ∧ n < 2048 + 4 * (i + 1)) (mem : ℕ → UInt8) :
          stored (argvLoop area (i + 1) es) mem n = mem n := by
        refine stored_frame (fun w hw => ?_) mem
        rcases argvLoop_range hw with ⟨e', he', hw⟩ | hw
        · have := hbefore e' he'
          have := hin' e' he'
          omega
        · omega
      refine ⟨fun j hj => ?_, ?_⟩
      · rw [hrest (.inl (by omega)), stored_frame fun w hw => ?_, stored_copyRange, if_pos ⟨by omega, by omega⟩]
        have := pointerWrites_range hw
        omega
      · rw [← argPointer_written i e₀.off (stored (copyRange area e₀.off (e₀.len + 1)) page)]
        simp only [argPointer, appArgvAreaSize, Nat.add_zero]
        rw [hrest (by omega), hrest (by omega), hrest (by omega), hrest (by omega)]

/-! ## Both together -/

section

variable {args : List CStr} (hroom : args = [] ∨ 0 + argBytes args.dropLast < 2048)
include hroom

theorem stageLoop_inside : ∀ e ∈ (stageLoop 0 args).slots, e.off + e.len < 2048 := by
  intro e he
  obtain ⟨i, hi, rfl⟩ := getElem_of_mem he
  have hfits := stageLoop_fits hroom
  exact ((List.forall₂_iff_get.1 hfits).2 i (hfits.length_eq.symm ▸ hi) hi).1

/-- an argument on its way through both copies -/
theorem arg_arrives (area page : ℕ → UInt8) {i : ℕ} (hi : i < args.length) :
    let page' := stored (argvLoop (stored (stageLoop 0 args).writes area) 0 (stageLoop 0 args).slots) page
    ∃ off l, l <+: args[i].bytes ∧ off + l.length < 2048 ∧ argPointer page' i = appStackVaddr + UInt32.ofNat off ∧
      HoldsStr page' off l ∧ (argBytes args ≤ 2048 → l = args[i].bytes) := by
  intro page'
  obtain ⟨hlength, -, hapart⟩ := stageLoop_slots args 0
  have hslot : i < (stageLoop 0 args).slots.length := hlength.symm ▸ hi
  have hstr := (List.forall₂_iff_get.1 (stageLoop_holds args 0 area)).2 i hi hslot
  obtain ⟨hend, hall⟩ := (List.forall₂_iff_get.1 (stageLoop_fits hroom)).2 i hi hslot
  obtain ⟨hcopied, hptr⟩ := argvLoop_holds (stageLoop_inside hroom) hapart 0 (stored (stageLoop 0 args).writes area) page
    (getElem?_eq_getElem hslot)
  rw [Nat.zero_add] at hptr
  simp only [get_eq_getElem] at hstr hend hall
  generalize (stageLoop 0 args).slots[i] = e at *
  refine ⟨e.off, args[i].bytes.take e.len, take_prefix _ _, ?_, hptr, fun j hj => ?_, fun hfit => ?_⟩
  · rw [length_take]
    omega
  · have hle : j ≤ e.len := hj.trans (length_take_le _ _)
    exact (hcopied j hle).trans (hstr j hj)
  · rw [hall (by rwa [Nat.zero_add]), take_length]

end

theorem stageArgv_eq (argc : ℤ) (argv : ℕ → CStr) :
    stageArgv argc argv = (min argc 16, stageLoop 0 ((List.range (min argc 16).toNat).map argv)) := by
  have hargc : (if argc > appArgvMax then appArgvMax else argc) = min argc 16 := by
    rw [appArgvMax]
    split_ifs <;> omega
  rw [stageArgv, hargc]

theorem argBytes_range (argv : ℕ → CStr) (n : ℕ) :
    argBytes ((List.range n).map argv) = ∑ k ∈ Finset.range n, ((argv k).bytes.length + 1) := by
  induction n with
  | zero => rfl
  | succ n ih =>
    rw [Finset.sum_range_succ, ← ih]
    simp [argBytes, range_succ]

/-- the room that is left for the last argument -/
theorem argBytes_dropLast (argv : ℕ → CStr) (n : ℕ) :
    ((List.range n).map argv = [] ∨ 0 + argBytes ((List.range n).map argv).dropLast < 2048) ↔
      ∑ k ∈ Finset.range (n - 1), ((argv k).bytes.length + 1) < 2048 := by
  cases n with
  | zero => exact iff_of_true (.inl rfl) (Nat.zero_lt_succ 2047)
  | succ n =>
    rw [range_succ, map_append, map_singleton, dropLast_concat, argBytes_range, Nat.zero_add,
      Nat.add_sub_cancel]
    exact or_iff_right (by simp)

/-- **What the program gets.** For every argc, every argument strings and every earlier contents of argv_stage_area and of
the stack page: all writes are in bounds, the staged strings lie apart, and the program sees min(argc, 16) pointers, each to
a NUL-terminated beginning of its argument, which is all of it whenever the arguments fit, exactly if the arguments before
the last one take less than the 2048 bytes of the area. -/
theorem argv_delivered (argc : ℤ) (argv : ℕ → CStr) (area page : ℕ → UInt8) :
    Delivered argc argv area page ↔
      ∑ k ∈ Finset.range ((min argc 16).toNat - 1), ((argv k).bytes.length + 1) < 2048 := by
  rw [← argBytes_dropLast]
  refine ⟨fun h => (stageLoop_bounds _ 0).1 ?_, fun hroom => ?_⟩
  · have hin := h.inArea
    rwa [stageArgv_eq] at hin
  obtain ⟨hlength, -, hapart⟩ := stageLoop_slots ((List.range (min argc 16).toNat).map argv) 0
  rw [length_map, length_range] at hlength
  constructor
  case inArea =>
    rw [stageArgv_eq]
    exact (stageLoop_bounds _ 0).2 hroom
  case inPage =>
    intro w hw
    rw [pageWrites, stageArgv_eq] at hw
    rcases argvLoop_range hw with ⟨e, he, hw⟩ | hw
    · have := stageLoop_inside hroom e he
      omega
    · rw [hlength] at hw
      omega
  case apart =>
    rw [stageArgv_eq]
    exact hapart
  case count =>
    rw [stageArgv_eq]
    exact ⟨rfl, hlength⟩
  case args =>
    intro i hi
    rw [pageWrites, stageArgv_eq, ← argBytes_range]
    have hi : i < ((List.range (min argc 16).toNat).map argv).length := by simpa using hi
    have harrives := arg_arrives hroom area page hi
    simpa only [getElem_map, getElem_range] using harrives

/-- a first argument of 2047 bytes fills the area: the terminator of the second is written behind it -/
theorem argv_past_area : ∃ argv : ℕ → CStr, (2048, 0) ∈ (stageArgv 2 argv).2.writes ∧
    ∀ area page, ¬ Delivered 2 argv area page := by
  have hlong : (0 : UInt8) ∉ List.replicate 2047 97 := fun h => absurd (eq_of_mem_replicate h) (by decide)
  have hshort : (0 : UInt8) ∉ [98] := by decide
  let argv : ℕ → CStr := fun i => if i = 0 then ⟨_, hlong⟩ else ⟨_, hshort⟩
  have hlen : min (argv 0).bytes.length (2047 - 0) = 2047 := min_eq_right List.length_replicate.ge
  have hwrite : (2048, 0) ∈ (stageArgv 2 argv).2.writes := by
    rw [stageArgv_eq]
    show (2048, 0) ∈ (stageLoop 0 [argv 0, argv 1]).writes
    simp only [stageLoop_cons, hlen]
    exact mem_append_right _ (mem_append_left _ mem_cons_self)
  exact ⟨argv, hwrite, fun area page h => absurd (h.inArea _ hwrite) (lt_irrefl 2048)⟩

end GannetOS.Proc
