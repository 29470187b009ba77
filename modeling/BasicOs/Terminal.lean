import BasicOs.Video

/-!
# The terminal driver

`terminal_read` and `terminal_write` of `terminal.c`, and the buffer they share with the keyboard.

`strlen` and stores at computed indices may run past `keyboard_buf` and past the terminal, so the
terminals also have a view as bytes:

* `Term.byteAt t i` : byte `i` of a `term_t`; `keyboard_buf` starts at byte 16, `history` at byte 184, and the
  words in between and before have the numbers of `Term.word`;
* `Kernel.termsByte k a`, `Kernel.storeTerms k a c` : byte `a` of the memory from `terminals` on;
* `Kernel.pokeBuf k t i c` : `terminals[t].keyboard_buf[i] = c`, for any index `i`;
* `Term.strlenBuf` : `strlen(keyboard_buf)`.
-/

namespace BasicOs
open Bytes

/-! ## The bytes of a terminal -/

/-- `sizeof(term_t)`. -/
def termSize : Nat := 12984

/-- The word `n` of a `term_t`, for the words that are not part of an array of characters. -/
def Term.word (t : Term) : Nat → Int
  | 0 => t.termX
  | 1 => t.termY
  | 2 => t.termId
  | 3 => t.activePid
  | 36 => t.bufIdx
  | 37 => t.termPid 0
  | 38 => t.termPid 1
  | 39 => t.termPid 2
  | 40 => t.termPid 3
  | 41 => t.vidmem
  | 42 => t.keyFlag
  | 43 => t.acRepeats
  | 44 => t.historyIdx
  | 45 => t.absoluteHistoryIdx
  | _ => 0

/-- The terminal after the store of such a word. -/
def Term.setWord (t : Term) (v : Int) : Nat → Term
  | 0 => { t with termX := v }
  | 1 => { t with termY := v }
  | 2 => { t with termId := v }
  | 3 => { t with activePid := v }
  | 36 => { t with bufIdx := v }
  | 37 => { t with termPid := Function.update t.termPid 0 v }
  | 38 => { t with termPid := Function.update t.termPid 1 v }
  | 39 => { t with termPid := Function.update t.termPid 2 v }
  | 40 => { t with termPid := Function.update t.termPid 3 v }
  | 41 => { t with vidmem := v }
  | 42 => { t with keyFlag := v }
  | 43 => { t with acRepeats := v }
  | 44 => { t with historyIdx := v }
  | 45 => { t with absoluteHistoryIdx := v }
  | _ => t

/-- Byte `i` of a `term_t`. -/
def Term.byteAt (t : Term) (i : Nat) : UInt8 :=
  if 16 ≤ i ∧ i < 144 then t.keyboardBuf (i - 16)
  else if i < 184 then intByte (t.word (i / 4)) (i % 4)
  else t.history ((i - 184) / 128) ((i - 184) % 128)

/-- The terminal after the store of a byte at `i`. -/
def Term.setByte (t : Term) (i : Nat) (c : UInt8) : Term :=
  if 16 ≤ i ∧ i < 144 then { t with keyboardBuf := Function.update t.keyboardBuf (i - 16) c }
  else if i < 184 then t.setWord (setIntByte (t.word (i / 4)) (i % 4) c) (i / 4)
  else
    let row := (i - 184) / 128
    { t with history := Function.update t.history row (Function.update (t.history row) ((i - 184) % 128) c) }

/-- Byte `a` of the memory that starts with the array `terminals`. -/
def Kernel.termsByte (k : Kernel) (a : Nat) : UInt8 :=
  if h : a / termSize < 3 then (k.terminals ⟨a / termSize, h⟩).byteAt (a % termSize)
  else k.afterTerminals (a - 3 * termSize)

/-- A store at byte `a` of that memory; what lies before the array is not modelled. -/
def Kernel.storeTerms (k : Kernel) (a : Int) (c : UInt8) : Option Kernel :=
  if a < 0 then none
  else if h : a.toNat / termSize < 3 then
    some (k.modifyTerm ⟨a.toNat / termSize, h⟩ fun t => t.setByte (a.toNat % termSize) c)
  else some { k with afterTerminals := Function.update k.afterTerminals (a.toNat - 3 * termSize) c }

/-- `terminals[t].keyboard_buf[i] = c`. -/
def Kernel.pokeBuf (k : Kernel) (t : Fin 3) (i : Int) (c : UInt8) : Option Kernel :=
  k.storeTerms (t.val * termSize + 16 + i) c

/-- The stores of a loop into `terminals[t].keyboard_buf`, in order. -/
def Kernel.pokeAll (k : Kernel) (t : Fin 3) (stores : List (Int × UInt8)) : Option Kernel :=
  stores.foldlM (fun k s => k.pokeBuf t s.1 s.2) k

/-- What a pointer to `keyboard_buf` sees. -/
def Term.bufView (t : Term) : Nat → UInt8 := fun i => t.byteAt (16 + i)

/-- `strlen(keyboard_buf)`; the bytes of `buf_idx` after the array hold a zero while it is below `2^24`, so
the end of the structure is never reached. -/
def Term.strlenBuf (t : Term) : Nat := strnlen t.bufView (termSize - 16)

theorem Term.bufView_of_lt (t : Term) {i : Nat} (h : i < 128) : t.bufView i = t.keyboardBuf i := by
  unfold bufView byteAt
  rw [if_pos (by omega), Nat.add_sub_cancel_left]

theorem Term.bufView_bufIdx (t : Term) {j : Nat} (h : j < 4) : t.bufView (128 + j) = intByte t.bufIdx j := by
  unfold bufView byteAt
  rw [if_neg (by omega), if_pos (by omega), show (16 + (128 + j)) / 4 = 36 by omega,
    show (16 + (128 + j)) % 4 = j by omega]
  rfl

/-- The terminal after a store inside the array. -/
def Term.setBuf (t : Term) (i : Nat) (c : UInt8) : Term :=
  { t with keyboardBuf := Function.update t.keyboardBuf i c }

/-- A store into `keyboard_buf` that stays in the terminal. -/
theorem Kernel.pokeBuf_eq (k : Kernel) (t : Fin 3) {i : Int} (hlo : -16 ≤ i) (hhi : i < 12968) (c : UInt8) :
    k.pokeBuf t i c = some (k.modifyTerm t fun term => term.setByte (16 + i).toNat c) := by
  have ht := t.isLt
  have hnat : ((t.val : Int) * (termSize : Nat) + 16 + i).toNat = t.val * 12984 + (16 + i).toNat := by
    simp only [termSize]
    omega
  unfold pokeBuf storeTerms
  rw [if_neg (by simp only [termSize]; omega), hnat]
  have hdiv : (t.val * 12984 + (16 + i).toNat) / termSize = t.val := by
    simp only [termSize]
    omega
  have hmod : (t.val * 12984 + (16 + i).toNat) % termSize = (16 + i).toNat := by
    simp only [termSize]
    omega
  simp only [hdiv, hmod, t.isLt, dif_pos, Fin.eta]

theorem Kernel.pokeBuf_of_lt (k : Kernel) (t : Fin 3) {i : Nat} (h : i < 128) (c : UInt8) :
    k.pokeBuf t i c = some (k.modifyTerm t fun term => term.setBuf i c) := by
  rw [k.pokeBuf_eq t (by omega) (by omega), show (16 + (i : Int)).toNat = 16 + i by omega]
  congr 2
  funext term
  rw [Term.setByte, if_pos (by omega), Nat.add_sub_cancel_left]
  rfl

/-- The byte before the array is the last one of `active_pid`. -/
theorem Kernel.pokeBuf_neg_one (k : Kernel) (t : Fin 3) (c : UInt8) : k.pokeBuf t (-1) c =
    some (k.modifyTerm t fun term => { term with activePid := setIntByte term.activePid 3 c }) :=
  k.pokeBuf_eq t (by decide) (by decide) c

/-! ## The driver -/

/-- `clear_keyboard_buf`. -/
def clearKeyboardBuf (k : Kernel) (termId : Fin 3) : Kernel :=
  k.modifyTerm termId fun t =>
    { t with
      keyboardBuf := fun i => if i < keyboardBufSize then 0 else t.keyboardBuf i
      bufIdx := 0 }

/-- `terminal_read`: the state, the value returned and the bytes copied to `buf`; `none` while the call
waits for `key_flag`. -/
def terminalRead (k : Kernel) (bufNull : Bool) (nbytes : Int) : Option (Kernel × Int × List UInt8) :=
  if nbytes ≤ 0 ∨ bufNull then some (k, -1, [])
  else
    let t := k.terminals k.scheduledProcess
    if t.keyFlag = 0 then none
    else
      let bytes : Nat := if (t.strlenBuf : Int) < nbytes then t.strlenBuf else nbytes.toNat
      let k' := clearKeyboardBuf k k.scheduledProcess
      some (k'.modifyTerm k.scheduledProcess fun t => { t with keyFlag := 0 }, bytes, bytesAt t.bufView bytes)

/-- `terminal_write`; `buf` is what a pointer that is not NULL designates. -/
def terminalWrite (k : Kernel) (buf : Option (Nat → UInt8)) (nbytes : Int) : Kernel × Int :=
  match buf with
  | none => (k, -1)
  | some b =>
    if nbytes ≤ 0 then (k, -1)
    else
      (Run.forUp 0 nbytes.toNat
        (fun i k => if b i ≠ 0 then putc k (b i) k.scheduledProcess else k) k, nbytes)

theorem terminalWrite_screenOnly (k : Kernel) (buf : Option (Nat → UInt8)) (nbytes : Int) :
    ScreenOnly k (terminalWrite k buf nbytes).1 := by
  unfold terminalWrite
  cases buf with
  | none => exact ScreenOnly.refl k
  | some b =>
    dsimp only
    split_ifs
    · exact ScreenOnly.refl k
    · apply Run.forUp_invariant (fun _ k' => ScreenOnly k k') _ 0 k (ScreenOnly.refl k)
      intro i k' _ _ h
      split_ifs
      · exact h.trans (putc_screenOnly k' _ _)
      · exact h

end BasicOs
