import BasicOs.Devices
import BasicOs.Filesystem
import BasicOs.Terminal

/-!
# The keyboard driver

The functions of `keyboard.c`, from the interrupt handler down to the line editor, the history and the
completion of file names. They work on the displayed terminal, `terminals[curr_term]`.

* `letterOf` : the character of a scancode under the modifiers;
* `addToBuf`, `deleteFromBuf`, `keyboardReturn` : the line editor;
* `moveUpHistory`, `moveDownHistory` : recall of earlier lines;
* `completeWord`, `autocomplete` : completion, as the search for the word and its effect on the line;
* `keyboardHandler` : the dispatch on a scancode; the flag it returns says that `sys_halt(-1)` follows.

`none` stands for a store or a read outside the arrays the model has: a function's local arrays, and the
memory before `terminals`.
-/

namespace BasicOs
open Bytes

/-! ## Scancodes -/

def scCtrl : UInt8 := 0x1D
def scCtrlRelease : UInt8 := 0x9D
def scLshift : UInt8 := 0x2A
def scRshift : UInt8 := 0x36
def scLshiftRelease : UInt8 := 0xAA
def scRshiftRelease : UInt8 := 0xB6
def scAlt : UInt8 := 0x38
def scAltRelease : UInt8 := 0xB8
def scCapsLock : UInt8 := 0x3A
def scCapsLockRelease : UInt8 := 0xBA
def scEnter : UInt8 := 0x1C
def scTab : UInt8 := 0x0F
def scTabRelease : UInt8 := 0x8F
def scUp : UInt8 := 72
def scUpRelease : UInt8 := 200
def scDown : UInt8 := 80
def scDownRelease : UInt8 := 208
def scBackspace : UInt8 := 0x0E
def scL : UInt8 := 0x26
def scC : UInt8 := 0x2E
def scF1 : UInt8 := 59
def scF2 : UInt8 := 60
def scF3 : UInt8 := 61

def keyboardIrqLine : Nat := 1

/-- `normal_map`, its four rows of sixteen one after the other. -/
def normalMap : List UInt8 :=
  [0, 0, 49, 50, 51, 52, 53, 54, 55, 56, 57, 48, 45, 61, 0, 0,
   113, 119, 101, 114, 116, 121, 117, 105, 111, 112, 91, 93, 10, 0, 97, 115,
   100, 102, 103, 104, 106, 107, 108, 59, 39, 96, 0, 92, 122, 120, 99, 118,
   98, 110, 109, 44, 46, 47, 0, 0, 0, 32, 0, 0, 0, 0, 0, 0]

/-- `shift_map`. -/
def shiftMap : List UInt8 :=
  [0, 0, 33, 64, 35, 36, 37, 94, 38, 42, 40, 41, 95, 43, 0, 0,
   81, 87, 69, 82, 84, 89, 85, 73, 79, 80, 123, 125, 10, 0, 65, 83,
   68, 70, 71, 72, 74, 75, 76, 58, 34, 126, 0, 124, 90, 88, 67, 86,
   66, 78, 77, 60, 62, 63, 0, 0, 0, 32, 0, 0, 0, 0, 0, 0]

def isUpper (letter : UInt8) : Bool := 65 ≤ letter && letter ≤ 90

/-- The letter `process_key` finds for a scancode below 64, under the two modifiers. -/
def letterOf (scancode : UInt8) (capsLock shift : Bool) : UInt8 :=
  let normal := normalMap.getD scancode.toNat 0
  let shifted := shiftMap.getD scancode.toNat 0
  let letter := if capsLock then (if isUpper shifted then shifted else normal) else normal
  if shift then
    if capsLock then (if isUpper letter then normal else shifted) else shifted
  else letter

/-! ## The line -/

/-- The displayed terminal. -/
def Kernel.term (k : Kernel) : Term := k.terminals k.currTerm

/-- The store `add_to_buf` makes into the buffer. -/
def addToBufStores (t : Term) (letter : UInt8) : List (Int × UInt8) :=
  if t.bufIdx < keyboardBufSize - 1 then [(t.bufIdx, letter)] else []

/-- `add_to_buf`. -/
def addToBuf (k : Kernel) (letter : UInt8) : Option Kernel := do
  let stored ← k.pokeAll k.currTerm (addToBufStores k.term letter)
  if k.term.bufIdx < keyboardBufSize - 1 then
    some (stored.modifyTerm k.currTerm fun t => { t with bufIdx := t.bufIdx + 1 })
  else some stored

/-- `delete_from_buf`. -/
def deleteFromBuf (k : Kernel) : Option Kernel := do
  let k := k.modifyTerm k.currTerm fun t => { t with bufIdx := t.bufIdx - 1 }
  let k ← k.pokeBuf k.currTerm k.term.bufIdx 0
  if k.term.bufIdx < 0 then some (k.modifyTerm k.currTerm fun t => { t with bufIdx := 0 }) else some k

/-- The prompt `391OS> `. -/
def prompt : List UInt8 := [51, 57, 49, 79, 83, 62, 32]

/-- The loop that prints the line again: `putc` of `keyboard_buf[i]` up to `strlen(keyboard_buf)`. -/
def putLine (k : Kernel) : Kernel := puts k (bytesAt k.term.bufView k.term.strlenBuf)

/-- `n` calls of `backspace`. -/
def backspaces (k : Kernel) (n : Nat) : Kernel := Run.forUp 0 n (fun _ k => backspace k) k

/-! ## History -/

/-- The address of row `row` of `terminals[t].history`, from the start of `terminals`. -/
def historyAddr (t : Fin 3) (row : Int) : Int := t.val * termSize + 184 + 128 * row

/-- `strncpy(history[row], keyboard_buf, KEYBOARD_BUF_SIZE)`, into a row of the array or, byte by byte,
into what follows it. -/
def saveHistory (k : Kernel) (row : Int) : Option Kernel :=
  let line := strncpy k.term.bufView keyboardBufSize
  if 0 ≤ row ∧ row ≤ 99 then
    some (k.modifyTerm k.currTerm fun t => { t with history := Function.update t.history row.toNat line })
  else
    (List.range keyboardBufSize).foldlM
      (fun k (j : Nat) => Kernel.storeTerms k (historyAddr k.currTerm row + j) (line j)) k

/-- The scan of `keyboard_return` for a row that starts with a NUL, over 1000 rows of which the array has
100. -/
def firstEmptyRow (k : Kernel) : Option Nat :=
  (List.range 1000).find? fun i => k.termsByte (historyAddr k.currTerm i).toNat = 0

/-- The first part of `keyboard_return`. -/
def recordLine (k : Kernel) : Option Kernel :=
  if k.term.historyIdx ≤ 99 then do
    let k ← saveHistory k k.term.historyIdx
    match firstEmptyRow k with
    | some i => some (k.modifyTerm k.currTerm fun t => { t with historyIdx := i, absoluteHistoryIdx := i })
    | none => some k
  else some k

/-- `keyboard_return`. -/
def keyboardReturn (k : Kernel) : Option Kernel := do
  let k ← recordLine k
  let k := if k.term.keyboardBuf 0 ≠ chNewline then putc k chNewline k.currTerm else k
  let k ← k.pokeBuf k.currTerm k.term.bufIdx chNewline
  some (k.modifyTerm k.currTerm fun t => { t with bufIdx := t.bufIdx + 1, keyFlag := 1, acRepeats := 0 })

/-- The end of the two recall functions: the line is erased from the screen, replaced by the row
`history_idx` of the history, and printed. -/
def recallRow (k : Kernel) : Kernel :=
  let k := backspaces k k.term.bufIdx.toNat
  let base := historyAddr k.currTerm k.term.historyIdx
  let row := strncpy (fun j => k.termsByte (base + j).toNat) keyboardBufSize
  let k := k.modifyTerm k.currTerm fun t =>
    { t with keyboardBuf := fun j => if j < keyboardBufSize then row j else t.keyboardBuf j }
  let k := k.modifyTerm k.currTerm fun t => { t with bufIdx := t.strlenBuf }
  putLine k

/-- The line is kept in the history before it is left, when it is the latest. -/
def keepLatest (k : Kernel) : Option Kernel :=
  if k.term.absoluteHistoryIdx = k.term.historyIdx then saveHistory k k.term.historyIdx else some k

/-- `move_up_history`. -/
def moveUpHistory (k : Kernel) : Option Kernel :=
  (keepLatest k).map fun k =>
    recallRow (k.modifyTerm k.currTerm fun t =>
      { t with historyIdx := if t.historyIdx - 1 ≥ 0 then t.historyIdx - 1 else 0 })

/-- `move_down_history`. -/
def moveDownHistory (k : Kernel) : Kernel :=
  if k.term.absoluteHistoryIdx < k.term.historyIdx + 1 ∨ k.term.historyIdx + 1 > 99 then k
  else recallRow (k.modifyTerm k.currTerm fun t => { t with historyIdx := t.historyIdx + 1 })

/-! ## Completion -/

/-- The loop that looks for the start of the last word: the greatest `i` below `n` that follows a space,
`-1` if there is none. -/
def lastWordStart (buf : Nat → UInt8) : Nat → Int
  | 0 => -1
  | n + 1 => if 1 ≤ n ∧ buf (n - 1) = chSpace then n else lastWordStart buf n

/-- The names found so far that start with the word (`ls`), and the array `best`. -/
structure Matches where
  best : Nat → UInt8
  ls : List (List UInt8)

/-- The loop over the directory. The outer `none` is the store past `ls`; the inner one the early return
on a name that is the word itself. -/
def collect (word : List UInt8) : List Dentry → Matches → Option (Option Matches)
  | [], m => some (some m)
  | d :: ds, m =>
    let fname := cstr d.filename
    if strncmp (ofList word) (ofList fname) word.length = 0 then
      if word.length = fname.length then some none
      else if m.ls.length < 33 then
        collect word ds
          { best := fun i => if i < fname.length then ofList fname i else m.best i, ls := m.ls ++ [fname] }
      else none
    else collect word ds m

/-- The entries `read_dentry_by_index` goes through. -/
def dirEntries (fs : FileSystem) : List Dentry :=
  if fs.theBootBlock = 0 then [] else (List.range fs.dirEntryCount).map fs.direntry

/-- `ls[i][j]`; the rows lie one after the other, and `stale` is the stack after them. -/
def lsByte (ls : List (List UInt8)) (stale : Nat → UInt8) (i j : Nat) : UInt8 :=
  let a := 33 * i + j
  if a < 33 * 33 then ofList (ls.getD (a / 33) []) (a % 33) else stale (a - 33 * 33)

/-- One round of the loop that compares neighbours in `ls`. A row outside the array that is not empty
cannot be compared. -/
def minDiffRound (ls : List (List UInt8)) (stale : Nat → UInt8) (index : Nat) (min : Int) : Option Int :=
  if lsByte ls stale (index - 1) 0 = 0 ∨ lsByte ls stale index 0 = 0 then some min
  else if index < 33 then
    let relMin := Nat.min (strnlen (lsByte ls stale (index - 1)) 33) (strnlen (lsByte ls stale index) 33)
    some ((List.range (relMin + 1)).foldl (fun min j =>
      if lsByte ls stale (index - 1) (j + 1) ≠ lsByte ls stale index (j + 1) ∧ (j : Int) < min then j
      else min) min)
  else none

/-- What Tab does to the line: nothing, another word from an index on, or only the list of candidates. -/
inductive Completion
  | nothing
  | replace (oldIdx : Nat) (best : List UInt8) (resetRepeats : Bool)
  | ambiguous (ls : List (List UInt8))

/-- The search part of `autocomplete`. -/
def completeWord (fs : FileSystem) (t : Term) (stale : Nat → UInt8) : Option Completion :=
  if t.bufView 0 = 0 then some .nothing
  else
    let length := t.strlenBuf
    let start := lastWordStart t.bufView length
    -- the word goes to `prefix[33]`, with its NUL when it follows a space
    let oldIdx := start.toNat
    let room := if start = -1 then length else length - oldIdx + 1
    let word := cstr (bytesAt (fun j => t.bufView (oldIdx + j)) (length - oldIdx))
    if room > 33 ∨ word.length > 32 then none
    else do
      match ← collect word (dirEntries fs) { best := fun _ => 0, ls := [] } with
      | none => some .nothing
      | some m =>
        if m.ls = [] then some .nothing
        else if m.ls.length = 1 then some (.replace oldIdx (cstr (bytesAt m.best 33)) false)
        else
          let min ← (List.range' 1 ((dirEntries fs).length - 1)).foldlM
            (fun min index => minDiffRound m.ls stale index min) 10000000
          if (word.length : Int) - 1 < min then
            if min + 1 ≤ 32 then
              some (.replace oldIdx (cstr (bytesAt m.best (min + 1).toNat)) true)
            else none
          else some (.ambiguous m.ls)

/-- The stores `autocomplete` makes into the buffer: the word with its NUL. -/
def replaceStores (oldIdx : Nat) (best : List UInt8) : List (Int × UInt8) :=
  (List.range (best.length + 1)).map fun j => ((oldIdx + j : Nat), ofList best j)

/-- The characters `printf(s)` prints; with a conversion in `s` they depend on the stack, which `fmt`
stands for. -/
def printfChars (fmt : List UInt8 → List UInt8) (s : List UInt8) : List UInt8 := if 37 ∈ s then fmt s else s

/-- The list of candidates that a repeated Tab prints: the first 30 names, the prompt and the buffer. -/
def candidateChars (fmt : List UInt8 → List UInt8) (t : Term) (ls : List (List UInt8)) : List UInt8 :=
  chNewline :: ((ls.take 30).flatMap fun name => printfChars fmt name ++ [chNewline]) ++ prompt ++
    bytesAt t.bufView keyboardBufSize

/-- `autocomplete`. -/
def autocomplete (k : Kernel) (stale : Nat → UInt8) (fmt : List UInt8 → List UInt8) : Option Kernel := do
  match ← completeWord k.fs k.term stale with
  | .nothing => some k
  | .ambiguous ls =>
    let k := k.modifyTerm k.currTerm fun t => { t with acRepeats := t.acRepeats + 1 }
    if k.term.acRepeats > 1 then some (puts k (candidateChars fmt k.term ls)) else some k
  | .replace oldIdx best resetRepeats =>
    let oldLength := k.term.strlenBuf
    let k := if resetRepeats then k.modifyTerm k.currTerm fun t => { t with acRepeats := 0 } else k
    let k ← k.pokeAll k.currTerm (replaceStores oldIdx best)
    let k := backspaces k (oldLength - 1 - oldIdx)
    let k := k.modifyTerm k.currTerm fun t => { t with bufIdx := t.strlenBuf }
    some (puts k ((bytesAt k.term.bufView keyboardBufSize).drop (oldIdx + 1)))

/-! ## The interrupt handler -/

/-- The branch of `process_key` with Ctrl held. -/
def controlKey (k : Kernel) (scancode : UInt8) : Kernel :=
  if scancode = scL then
    let k := clear k
    putLine (if k.shellFlag then puts k prompt else k)
  else if scancode = scC then { k with callHalt := true }
  else k

/-- The branch with Alt held. -/
def altKey (k : Kernel) (scancode : UInt8) : Kernel :=
  if scancode = scF1 then switchTerminals k 0
  else if scancode = scF2 then switchTerminals k 1
  else if scancode = scF3 then switchTerminals k 2
  else k

/-- The end of `process_key`: the letter is added to the line and echoed. -/
def typeLetter (k : Kernel) (letter : UInt8) : Option Kernel :=
  if k.term.bufIdx ≤ 126 then (addToBuf k letter).map fun k => putc k letter k.currTerm else some k

/-- `process_key`. -/
def processKey (k : Kernel) (scancode : UInt8) : Option Kernel :=
  if scancode &&& 0x80 ≠ 0 then some k
  else if scancode.toNat / 16 > 3 then some k
  else if k.ctrlPressed then some (controlKey k scancode)
  else if k.altPressed then some (altKey k scancode)
  else typeLetter k (letterOf scancode k.capsLockPressed k.shiftPressed)

/-- The screen part of `case BACKSPACE`. -/
def eraseLast (k : Kernel) : Kernel := if k.term.bufIdx > 0 then backspace k else k

/-- The `case BACKSPACE` of the handler. -/
def backspaceKey (k : Kernel) : Option Kernel :=
  if k.term.bufIdx ≥ 0 then
    (deleteFromBuf (eraseLast k)).map fun k => k.modifyTerm k.currTerm fun t => { t with acRepeats := 0 }
  else some k

/-- The cases of the handler's `switch`. -/
inductive KeyCase
  | ctrl (pressed : Bool)
  | shift (pressed : Bool)
  | alt (pressed : Bool)
  | capsLock
  | ignored
  | enter
  | tab
  | up
  | down
  | backspace
  | other
  deriving DecidableEq

/-- The case a scancode is in. -/
def keyCase (scancode : UInt8) : KeyCase :=
  if scancode = scCtrl then .ctrl true
  else if scancode = scCtrlRelease then .ctrl false
  else if scancode = scLshift ∨ scancode = scRshift then .shift true
  else if scancode = scLshiftRelease ∨ scancode = scRshiftRelease then .shift false
  else if scancode = scAlt then .alt true
  else if scancode = scAltRelease then .alt false
  else if scancode = scCapsLock then .capsLock
  else if scancode = scCapsLockRelease then .ignored
  else if scancode = scEnter then .enter
  else if scancode = scTab then .tab
  else if scancode = scTabRelease then .ignored
  else if scancode = scUp then .up
  else if scancode = scUpRelease then .ignored
  else if scancode = scDown then .down
  else if scancode = scDownRelease then .ignored
  else if scancode = scBackspace then .backspace
  else .other

/-- The `switch` of the handler. -/
def dispatchKey (k : Kernel) (scancode : UInt8) (stale : Nat → UInt8) (fmt : List UInt8 → List UInt8) :
    Option Kernel :=
  match keyCase scancode with
  | .ctrl pressed => some { k with ctrlPressed := pressed }
  | .shift pressed => some { k with shiftPressed := pressed }
  | .alt pressed => some { k with altPressed := pressed }
  | .capsLock => some { k with capsLockPressed := !k.capsLockPressed }
  | .ignored => some k
  | .enter => keyboardReturn k
  | .tab => autocomplete k stale fmt
  | .up => moveUpHistory k
  | .down => some (moveDownHistory k)
  | .backspace => backspaceKey k
  | .other => processKey k scancode

/-- `keyboard_handler`, up to its call of `sys_halt(-1)`: whether that call follows is returned. -/
def keyboardHandler (k : Kernel) (scancode : UInt8) (stale : Nat → UInt8)
    (fmt : List UInt8 → List UInt8) : Option (Kernel × Bool) :=
  if scancode > 0xD8 then some (k, false)
  else
    (dispatchKey k scancode stale fmt).map fun k =>
      let k := sendEoi k keyboardIrqLine
      if k.runningFlag ∧ k.callHalt then ({ k with runningFlag := false, callHalt := false }, true)
      else (k, false)

/-! ## What the driver leaves alone -/

/-- Only the terminals and the kernel's page table differ. -/
def TtyOnly (k k' : Kernel) : Prop :=
  ∃ (tty : Tty) (pageTable : Nat → Pte), k' = { k with toTty := tty, pageTable := pageTable }

theorem TtyOnly.refl (k : Kernel) : TtyOnly k k := ⟨k.toTty, k.pageTable, rfl⟩

theorem TtyOnly.trans {k₁ k₂ k₃ : Kernel} (h₁ : TtyOnly k₁ k₂) (h₂ : TtyOnly k₂ k₃) : TtyOnly k₁ k₃ := by
  obtain ⟨tty, pt, rfl⟩ := h₁
  obtain ⟨tty', pt', rfl⟩ := h₂
  exact ⟨tty', pt', rfl⟩

theorem ScreenOnly.ttyOnly {k k' : Kernel} (h : ScreenOnly k k') : TtyOnly k k' := by
  obtain ⟨tty, rfl, -⟩ := h
  exact ⟨_, _, rfl⟩

/-- Only the terminals, the devices and the kernel's page table differ. -/
def InputOnly (k k' : Kernel) : Prop :=
  ∃ (tty : Tty) (devices : Devices) (pageTable : Nat → Pte),
    k' = { k with toTty := tty, toDevices := devices, pageTable := pageTable }

theorem InputOnly.refl (k : Kernel) : InputOnly k k := ⟨k.toTty, k.toDevices, k.pageTable, rfl⟩

theorem InputOnly.trans {k₁ k₂ k₃ : Kernel} (h₁ : InputOnly k₁ k₂) (h₂ : InputOnly k₂ k₃) :
    InputOnly k₁ k₃ := by
  obtain ⟨tty, devices, pt, rfl⟩ := h₁
  obtain ⟨tty', devices', pt', rfl⟩ := h₂
  exact ⟨tty', devices', pt', rfl⟩

theorem TtyOnly.inputOnly {k k' : Kernel} (h : TtyOnly k k') : InputOnly k k' := by
  obtain ⟨tty, pt, rfl⟩ := h
  exact ⟨tty, k.toDevices, pt, rfl⟩

theorem DevicesOnly.inputOnly {k k' : Kernel} (h : DevicesOnly k k') : InputOnly k k' := by
  obtain ⟨d, rfl⟩ := h
  exact ⟨_, _, _, rfl⟩

theorem ttyOnly_modifyTerm (k : Kernel) (t : Fin 3) (f : Term → Term) : TtyOnly k (k.modifyTerm t f) :=
  ⟨_, _, rfl⟩

theorem storeTerms_ttyOnly {k k' : Kernel} {a : Int} {c : UInt8} (h : k.storeTerms a c = some k') :
    TtyOnly k k' := by
  unfold Kernel.storeTerms at h
  split_ifs at h
  · cases h
    exact ttyOnly_modifyTerm _ _ _
  · cases h
    exact ⟨_, _, rfl⟩

theorem pokeBuf_ttyOnly {k k' : Kernel} {t : Fin 3} {i : Int} {c : UInt8}
    (h : k.pokeBuf t i c = some k') : TtyOnly k k' := storeTerms_ttyOnly h

theorem pokeAll_ttyOnly {k k' : Kernel} {t : Fin 3} {stores : List (Int × UInt8)}
    (h : k.pokeAll t stores = some k') : TtyOnly k k' :=
  Run.foldlM_invariant (TtyOnly k) stores (fun _ _ _ _ hs hp => hs.trans (pokeBuf_ttyOnly hp))
    (TtyOnly.refl k) h

theorem saveHistory_ttyOnly {k k' : Kernel} {row : Int} (h : saveHistory k row = some k') :
    TtyOnly k k' := by
  unfold saveHistory at h
  dsimp only at h
  split_ifs at h
  · cases h
    exact ttyOnly_modifyTerm _ _ _
  · exact Run.foldlM_invariant (TtyOnly k) _ (fun _ _ _ _ hs hp => hs.trans (storeTerms_ttyOnly hp))
      (TtyOnly.refl k) h

theorem backspaces_ttyOnly (k : Kernel) (n : Nat) : TtyOnly k (backspaces k n) :=
  Run.forUp_invariant (fun _ k' => TtyOnly k k') n 0 k (TtyOnly.refl k)
    fun _ k' _ _ h => h.trans (backspace_screenOnly k').ttyOnly

theorem putLine_ttyOnly (k : Kernel) : TtyOnly k (putLine k) := (puts_screenOnly _ k).ttyOnly

theorem recallRow_ttyOnly (k : Kernel) : TtyOnly k (recallRow k) := by
  unfold recallRow
  exact (((backspaces_ttyOnly k _).trans (ttyOnly_modifyTerm _ _ _)).trans
    (ttyOnly_modifyTerm _ _ _)).trans (putLine_ttyOnly _)

theorem moveUpHistory_ttyOnly {k k' : Kernel} (h : moveUpHistory k = some k') : TtyOnly k k' := by
  obtain ⟨k₁, h₁, rfl⟩ := Option.map_eq_some_iff.mp h
  refine TtyOnly.trans ?_ ((ttyOnly_modifyTerm k₁ _ _).trans (recallRow_ttyOnly _))
  unfold keepLatest at h₁
  split_ifs at h₁
  · exact saveHistory_ttyOnly h₁
  · cases h₁
    exact TtyOnly.refl k

theorem moveDownHistory_ttyOnly (k : Kernel) : TtyOnly k (moveDownHistory k) := by
  unfold moveDownHistory
  split_ifs
  · exact TtyOnly.refl k
  · exact (ttyOnly_modifyTerm k _ _).trans (recallRow_ttyOnly _)

theorem recordLine_ttyOnly {k k' : Kernel} (h : recordLine k = some k') : TtyOnly k k' := by
  unfold recordLine at h
  split_ifs at h
  · obtain ⟨k₁, h₁, h₂⟩ := Option.bind_eq_some_iff.mp h
    apply (saveHistory_ttyOnly h₁).trans
    split at h₂
    · cases h₂
      exact ttyOnly_modifyTerm _ _ _
    · cases h₂
      exact TtyOnly.refl _
  · cases h
    exact TtyOnly.refl k

theorem keyboardReturn_ttyOnly {k k' : Kernel} (h : keyboardReturn k = some k') : TtyOnly k k' := by
  unfold keyboardReturn at h
  obtain ⟨k₁, h₁, h⟩ := Option.bind_eq_some_iff.mp h
  obtain ⟨k₂, h₂, h⟩ := Option.bind_eq_some_iff.mp h
  cases h
  refine (recordLine_ttyOnly h₁).trans (TtyOnly.trans ?_
    ((pokeBuf_ttyOnly h₂).trans (ttyOnly_modifyTerm _ _ _)))
  split_ifs
  · exact (putc_screenOnly _ _ _).ttyOnly
  · exact TtyOnly.refl _

theorem autocomplete_ttyOnly {k k' : Kernel} {stale : Nat → UInt8} {fmt : List UInt8 → List UInt8}
    (h : autocomplete k stale fmt = some k') : TtyOnly k k' := by
  unfold autocomplete at h
  obtain ⟨c, -, h⟩ := Option.bind_eq_some_iff.mp h
  cases c with
  | nothing =>
    cases h
    exact TtyOnly.refl k
  | ambiguous ls =>
    dsimp only at h
    split_ifs at h
    · cases h
      exact (ttyOnly_modifyTerm k _ _).trans (puts_screenOnly _ _).ttyOnly
    · cases h
      exact ttyOnly_modifyTerm k _ _
  | replace oldIdx best resetRepeats =>
    obtain ⟨k₁, h₁, h⟩ := Option.bind_eq_some_iff.mp h
    cases h
    refine TtyOnly.trans ?_ ((pokeAll_ttyOnly h₁).trans (((backspaces_ttyOnly _ _).trans
      (ttyOnly_modifyTerm _ _ _)).trans (puts_screenOnly _ _).ttyOnly))
    split_ifs
    · exact ttyOnly_modifyTerm k _ _
    · exact TtyOnly.refl k

theorem switchTerminals_ttyOnly (k : Kernel) (t : Fin 3) : TtyOnly k (switchTerminals k t) := by
  unfold switchTerminals
  split_ifs
  · exact TtyOnly.refl k
  · exact ⟨_, _, rfl⟩

theorem addToBuf_ttyOnly {k k' : Kernel} {letter : UInt8} (h : addToBuf k letter = some k') :
    TtyOnly k k' := by
  unfold addToBuf at h
  obtain ⟨k₁, h₁, h⟩ := Option.bind_eq_some_iff.mp h
  apply (pokeAll_ttyOnly h₁).trans
  split_ifs at h
  · cases h
    exact ttyOnly_modifyTerm _ _ _
  · cases h
    exact TtyOnly.refl _

/-- The scancode is that of `C`, pressed with Ctrl held. -/
def ctrlC (k : Kernel) (scancode : UInt8) : Bool := scancode == scC && k.ctrlPressed

/-- With Ctrl held, `L` prints on a cleared screen, `C` sets the flag, and no other key does anything. -/
theorem controlKey_cases (k : Kernel) (scancode : UInt8) :
    (scancode ≠ scC ∧ ∃ s, controlKey k scancode = puts (clear k) s) ∨
      (scancode = scC ∧ controlKey k scancode = { k with callHalt := true }) ∨
      (scancode ≠ scC ∧ controlKey k scancode = k) := by
  unfold controlKey
  by_cases hl : scancode = scL
  · rw [if_pos hl, hl]
    refine Or.inl ⟨by decide, ?_⟩
    dsimp only
    by_cases hs : (clear k).shellFlag
    · rw [if_pos hs, putLine, ← puts_append]
      exact ⟨_, rfl⟩
    · rw [if_neg hs]
      exact ⟨_, rfl⟩
  · rw [if_neg hl]
    split_ifs with hc
    · exact Or.inr (Or.inl ⟨hc, rfl⟩)
    · exact Or.inr (Or.inr ⟨hc, rfl⟩)

/-- Of the keyboard's flags, Ctrl and a key change only `call_halt`, and only if the key is `C`. -/
theorem controlKey_ttyOnly {k : Kernel} (hk : k.ctrlPressed) (scancode : UInt8) :
    TtyOnly { k with callHalt := k.callHalt || ctrlC k scancode } (controlKey k scancode) := by
  rcases controlKey_cases k scancode with ⟨hc, s, h⟩ | ⟨hc, h⟩ | ⟨hc, h⟩
  · rw [h, ctrlC, beq_eq_false_iff_ne.mpr hc, Bool.false_and, Bool.or_false]
    exact ((clear_screenOnly k).trans (puts_screenOnly s _)).ttyOnly
  · rw [h, ctrlC, beq_iff_eq.mpr hc, hk, Bool.and_self, Bool.or_true]
    exact TtyOnly.refl _
  · rw [h, ctrlC, beq_eq_false_iff_ne.mpr hc, Bool.false_and, Bool.or_false]
    exact TtyOnly.refl k

theorem altKey_ttyOnly (k : Kernel) (scancode : UInt8) : TtyOnly k (altKey k scancode) := by
  unfold altKey
  split_ifs
  · exact switchTerminals_ttyOnly k _
  · exact switchTerminals_ttyOnly k _
  · exact switchTerminals_ttyOnly k _
  · exact TtyOnly.refl k

theorem processKey_ttyOnly {k k' : Kernel} {scancode : UInt8} (h : processKey k scancode = some k') :
    TtyOnly { k with callHalt := k.callHalt || ctrlC k scancode } k' := by
  have hfree : ctrlC k scancode = false → TtyOnly k k' →
      TtyOnly { k with callHalt := k.callHalt || ctrlC k scancode } k' := by
    intro hc hk
    rw [hc, Bool.or_false]
    exact hk
  have hpressed : k.ctrlPressed = false → ctrlC k scancode = false := by
    intro hk
    rw [ctrlC, hk, Bool.and_false]
  unfold processKey typeLetter at h
  split_ifs at h with hrel hrow hctrl halt hidx
  · cases h
    refine hfree ?_ (TtyOnly.refl k)
    have hne : scancode ≠ scC := by
      rintro rfl
      exact hrel (by decide)
    rw [ctrlC, beq_eq_false_iff_ne.mpr hne, Bool.false_and]
  · cases h
    refine hfree ?_ (TtyOnly.refl k)
    have hne : scancode ≠ scC := by
      rintro rfl
      exact absurd hrow (by decide)
    rw [ctrlC, beq_eq_false_iff_ne.mpr hne, Bool.false_and]
  · cases h
    exact controlKey_ttyOnly hctrl scancode
  · cases h
    exact hfree (hpressed (by simpa using hctrl)) (altKey_ttyOnly k scancode)
  · obtain ⟨k₁, h₁, rfl⟩ := Option.map_eq_some_iff.mp h
    exact hfree (hpressed (by simpa using hctrl)) ((addToBuf_ttyOnly h₁).trans (putc_screenOnly _ _ _).ttyOnly)
  · cases h
    exact hfree (hpressed (by simpa using hctrl)) (TtyOnly.refl k)

theorem eraseLast_screenOnly (k : Kernel) : ScreenOnly k (eraseLast k) := by
  unfold eraseLast
  split
  · exact backspace_screenOnly k
  · exact ScreenOnly.refl k

theorem deleteFromBuf_ttyOnly {k k' : Kernel} (h : deleteFromBuf k = some k') : TtyOnly k k' := by
  unfold deleteFromBuf at h
  obtain ⟨k₁, h₁, h⟩ := Option.bind_eq_some_iff.mp h
  refine (ttyOnly_modifyTerm k _ _).trans ((pokeBuf_ttyOnly h₁).trans ?_)
  split_ifs at h
  · cases h
    exact ttyOnly_modifyTerm _ _ _
  · cases h
    exact TtyOnly.refl _

theorem backspaceKey_ttyOnly {k k' : Kernel} (h : backspaceKey k = some k') : TtyOnly k k' := by
  unfold backspaceKey at h
  split at h
  · obtain ⟨k₁, h₁, rfl⟩ := Option.map_eq_some_iff.mp h
    exact ((eraseLast_screenOnly k).ttyOnly.trans (deleteFromBuf_ttyOnly h₁)).trans (ttyOnly_modifyTerm _ _ _)
  · cases h
    exact TtyOnly.refl k

/-- The flags after the `switch` of the handler: `call_halt` is set by Ctrl+C, `running_flag` is kept. -/
theorem dispatchKey_ttyOnly {k k' : Kernel} {scancode : UInt8} {stale : Nat → UInt8}
    {fmt : List UInt8 → List UInt8} (h : dispatchKey k scancode stale fmt = some k') :
    ∃ keys : Keys, keys.callHalt = (k.callHalt || ctrlC k scancode) ∧ keys.runningFlag = k.runningFlag ∧
      TtyOnly { k with toKeys := keys } k' := by
  have hfree : keyCase scancode ≠ .other → (k.callHalt || ctrlC k scancode) = k.callHalt := by
    intro hne
    have : scancode ≠ scC := by
      rintro rfl
      exact hne (by decide)
    rw [ctrlC, beq_eq_false_iff_ne.mpr this, Bool.false_and, Bool.or_false]
  have hline : keyCase scancode ≠ .other → TtyOnly k k' → ∃ keys : Keys,
      keys.callHalt = (k.callHalt || ctrlC k scancode) ∧ keys.runningFlag = k.runningFlag ∧
        TtyOnly { k with toKeys := keys } k' :=
    fun hne hk => ⟨k.toKeys, (hfree hne).symm, rfl, hk⟩
  unfold dispatchKey at h
  cases hc : keyCase scancode <;> rw [hc] at h
  case other => exact ⟨{ k.toKeys with callHalt := k.callHalt || ctrlC k scancode }, rfl, rfl, processKey_ttyOnly h⟩
  case enter => exact hline (by rw [hc]; decide) (keyboardReturn_ttyOnly h)
  case tab => exact hline (by rw [hc]; decide) (autocomplete_ttyOnly h)
  case up => exact hline (by rw [hc]; decide) (moveUpHistory_ttyOnly h)
  case backspace => exact hline (by rw [hc]; decide) (backspaceKey_ttyOnly h)
  case down =>
    cases h
    exact hline (by rw [hc]; decide) (moveDownHistory_ttyOnly k)
  all_goals
    cases h
    refine ⟨_, ?_, ?_, TtyOnly.refl _⟩
    · exact (hfree (by rw [hc]; exact nofun)).symm
    · rfl

/-- Before it halts anything, the handler touches no process; it halts when `running_flag` is set and
`call_halt` is, by this key or an earlier one, and then clears both. -/
theorem keyboardHandler_inputOnly {k k' : Kernel} {scancode : UInt8} {stale : Nat → UInt8}
    {fmt : List UInt8 → List UInt8} {halts : Bool}
    (h : keyboardHandler k scancode stale fmt = some (k', halts)) :
    ∃ keys : Keys, InputOnly { k with toKeys := keys } k' ∧
      (keys.callHalt = if halts then false else (k.callHalt || ctrlC k scancode)) ∧
      (keys.runningFlag = if halts then false else k.runningFlag) ∧
      (halts = true ↔ ¬ scancode > 0xD8 ∧ k.runningFlag = true ∧ (k.callHalt || ctrlC k scancode) = true) := by
  unfold keyboardHandler at h
  split_ifs at h with hsc
  · cases h
    have hc : ctrlC k scancode = false := by
      have hne : scancode ≠ scC := by
        rintro rfl
        exact absurd hsc (by decide)
      rw [ctrlC, beq_eq_false_iff_ne.mpr hne, Bool.false_and]
    refine ⟨k.toKeys, InputOnly.refl k, ?_, rfl, ?_⟩
    · rw [hc, Bool.or_false]
      rfl
    · exact ⟨fun h => (nomatch h), fun h => absurd hsc h.1⟩
  · obtain ⟨k₁, h₁, h⟩ := Option.map_eq_some_iff.mp h
    obtain ⟨keys, hcall, hrun, hk₁⟩ := dispatchKey_ttyOnly h₁
    have hk₂ := hk₁.inputOnly.trans (sendEoi_devicesOnly k₁ keyboardIrqLine).inputOnly
    dsimp only at h
    generalize sendEoi k₁ keyboardIrqLine = k₂ at h hk₂
    obtain ⟨tty, devices, pt, rfl⟩ := hk₂
    dsimp only at h
    rw [hrun, hcall] at h
    split_ifs at h with hboth
    · cases h
      exact ⟨{ keys with runningFlag := false, callHalt := false }, ⟨tty, devices, pt, rfl⟩, rfl, rfl,
        fun _ => ⟨hsc, hboth.1, hboth.2⟩, fun _ => rfl⟩
    · cases h
      exact ⟨keys, ⟨tty, devices, pt, rfl⟩, hcall, hrun, fun h => (nomatch h),
        fun h => absurd ⟨h.2.1, h.2.2⟩ hboth⟩

end BasicOs
