import BasicOs.Lib.Run
import BasicOs.LineEditor

/-!
# The line discipline

What the process of a terminal gets from `terminal_read`, against what was typed on that terminal. The events of
a terminal are the keys delivered to it and the reads of its process; anything may happen elsewhere in between.
An observer keeps the characters typed since the last Enter, the lines submitted and the reads completed.

The buffer holds the typed characters as long as no key comes between Enter and the read, no key without a
character is stored, and no full line is read with more than 128 bytes (`LineReady`).

* `lines_read` : in such runs, the `i`-th read returns the `i`-th line.
-/

namespace BasicOs
open Bytes Run LineBuffer

/-! ## Events and the observer -/

inductive LineEvent
  | key (scancode : UInt8) (stale : Nat → UInt8) (fmt : List UInt8 → List UInt8)
  | read (nbytes : Int)
  | elsewhere (k' : Kernel)

/-- A key is handled, a read completes, or something else happens. -/
def lineStep (k : Kernel) : LineEvent → Option Kernel
  | .key scancode stale fmt => (keyboardHandler k scancode stale fmt).map Prod.fst
  | .read nbytes => (terminalRead k false nbytes).map Prod.fst
  | .elsewhere k' => some k'

/-- The entry of the maps for a key that is pressed, a NUL if it has no character; `none` for a release and for
scancodes outside the maps. -/
def letterPressed (k : Kernel) (scancode : UInt8) : Option UInt8 :=
  if scancode &&& 0x80 ≠ 0 ∨ scancode.toNat / 16 > 3 then none
  else some (letterOf scancode k.capsLockPressed k.shiftPressed)

/-- The events of terminal `t`: character keys, Backspace and Enter while it is displayed, with neither Ctrl nor
Alt held, and reads of the process scheduled on it. What happens elsewhere leaves its line alone. -/
def Delivered (t : Fin 3) (k : Kernel) : LineEvent → Prop
  | .key scancode _ _ => k.currTerm = t ∧ k.ctrlPressed = false ∧ k.altPressed = false ∧
      (keyCase scancode = .other ∨ keyCase scancode = .backspace ∨ keyCase scancode = .enter)
  | .read nbytes => k.scheduledProcess = t ∧ 0 < nbytes
  | .elsewhere k' => (k'.terminals t).line = (k.terminals t).line

/-- The characters displayed since the last Enter and not erased, the lines submitted, and the reads completed:
the bytes asked for, the value returned and the bytes stored. -/
structure LineLog where
  typed : List UInt8
  lines : List (List UInt8)
  reads : List (Int × Int × List UInt8)
deriving DecidableEq

def LineLog.empty : LineLog := ⟨[], [], []⟩

/-- The observer. The driver displays a character while the index is at most 126. -/
def noteLine (g : LineLog) (k : Kernel) (e : LineEvent) (_ : Kernel) : LineLog :=
  match e with
  | .key scancode _ _ =>
    match keyCase scancode with
    | .enter => { g with typed := [], lines := g.lines ++ [g.typed ++ [chNewline]] }
    | .backspace => { g with typed := g.typed.dropLast }
    | .other =>
      match letterPressed k scancode with
      | some c => if c ≠ 0 ∧ k.term.bufIdx ≤ 126 then { g with typed := g.typed ++ [c] } else g
      | none => g
    | _ => g
  | .read nbytes =>
    match terminalRead k false nbytes with
    | some (_, v, bytes) => { g with reads := g.reads ++ [(nbytes, v, bytes)] }
    | none => g
  | .elsewhere _ => g

/-- Each read returned the line of its number, as much of it as was asked for. -/
def ReadsLines (g : LineLog) : Prop :=
  ∀ (i : Nat) (n v : Int) (bytes : List UInt8), g.reads[i]? = some (n, v, bytes) →
    ∃ line : List UInt8, g.lines[i]? = some line ∧ line.length ≤ 128 ∧ v = min n line.length ∧
      bytes = line.take v.toNat

/-- The condition: no key that changes the buffer between Enter and the read of the line, no key without a
character while it would be stored, and no read of more than 128 bytes from a full buffer. -/
def LineReady (t : Fin 3) (k : Kernel) : LineEvent → Prop
  | .key scancode _ _ =>
    match keyCase scancode with
    | .enter | .backspace => (k.terminals t).keyFlag = 0
    | .other => ∀ c, letterPressed k scancode = some c →
        126 < (k.terminals t).bufIdx ∨ c ≠ 0 ∧ (k.terminals t).keyFlag = 0
    | _ => True
  | .read nbytes => nbytes ≤ 128 ∨ (k.terminals t).bufIdx ≤ 127
  | .elsewhere _ => True

/-! ## The invariant -/

/-- The buffer holds `content`, and the index is at its end. -/
structure Contains (l : Line) (content : List UInt8) : Prop where
  holds : Holds 0 128 l.buf content
  idx : l.idx = content.length
  nonzero : 0 ∉ content

/-- The buffer holds what was typed, or the line that was submitted and not read yet. -/
inductive LineState (l : Line) (g : LineLog) : Prop
  | editing (flag : l.flag = 0) (content : Contains l g.typed) (room : g.typed.length ≤ 127)
    (read : g.lines.length = g.reads.length)
  | submitted (line : List UInt8) (before : List (List UInt8)) (flag : l.flag = 1) (content : Contains l line)
    (typed : g.typed = []) (lines : g.lines = before ++ [line]) (read : before.length = g.reads.length)

structure LineInv (t : Fin 3) (k : Kernel) (g : LineLog) : Prop where
  row : 0 ≤ (k.terminals t).historyIdx
  state : LineState (k.terminals t).line g
  reads : ReadsLines g

variable {l : Line} {g : LineLog} {content : List UInt8}

theorem Contains.length_le (h : Contains l content) : content.length ≤ 128 := h.holds.1

theorem Contains.push (h : Contains l content) (hroom : content.length < 128) {c : UInt8} (hc : c ≠ 0) :
    Contains { l with buf := Function.update l.buf l.idx.toNat c, idx := l.idx + 1 } (content ++ [c]) where
  holds := by
    rw [h.idx, Int.toNat_natCast]
    exact h.holds.push hroom c
  idx := by
    rw [h.idx, List.length_append]
    rfl
  nonzero hmem := by
    rcases List.mem_append.mp hmem with hmem | hmem
    · exact h.nonzero hmem
    · exact hc (List.mem_singleton.mp hmem).symm

theorem Contains.erase (h : Contains l content) : Contains l.erase content.dropLast := by
  have hidx := h.idx
  unfold Line.erase
  split_ifs with h0
  · rw [show content = [] from List.eq_nil_of_length_eq_zero (by omega)] at h ⊢
    exact h
  · refine ⟨?_, ?_, fun hmem => h.nonzero (List.dropLast_sublist content |>.subset hmem)⟩
    · rw [show (l.idx - 1).toNat = content.length - 1 by omega]
      exact h.holds.pop
    · rw [List.length_dropLast, Nat.cast_sub (by omega), ← hidx]
      rfl

section Buffer
variable {t : Term}

theorem Term.bufView_of_holds (h : Holds 0 128 t.keyboardBuf content) {i : Nat} (hi : i < 128) :
    t.bufView i = content.getD i 0 := (t.bufView_of_lt hi).trans (h.2 i hi)

theorem Term.bufView_ne_of_holds (h : Holds 0 128 t.keyboardBuf content) (h0 : 0 ∉ content) {i : Nat}
    (hi : i < content.length) : t.bufView i ≠ 0 := by
  rw [Term.bufView_of_holds h (lt_of_lt_of_le hi h.1), List.getD_eq_getElem _ _ hi]
  exact fun hc => h0 (hc ▸ List.getElem_mem hi)

theorem Term.strlenBuf_of_holds (h : Holds 0 128 t.keyboardBuf content) (h0 : 0 ∉ content)
    (hroom : content.length ≤ 127) : t.strlenBuf = content.length := by
  refine strnlen_eq_of_zero (by simp only [termSize]; omega) (fun i hi => Term.bufView_ne_of_holds h h0 hi) ?_
  rw [Term.bufView_of_holds h (Nat.lt_succ_of_le hroom), List.getD_eq_default _ _ (le_refl _)]

/-- What `strlen` sees, up to the bytes that follow a full buffer. -/
theorem Contains.strlenBuf (h : Contains t.line content) :
    content.length ≤ t.strlenBuf ∧ (content.length ≤ 127 → t.strlenBuf = content.length) := by
  have hlen := h.length_le
  refine ⟨le_strnlen (by simp only [termSize]; omega) fun i hi => ?_, Term.strlenBuf_of_holds h.holds h.nonzero⟩
  exact Term.bufView_ne_of_holds h.holds h.nonzero hi

end Buffer

/-- What a read of the buffer gets. -/
theorem Contains.read {t : Term} (h : Contains t.line content) {n : Int} (hn : 0 < n)
    (hready : n ≤ 128 ∨ t.bufIdx ≤ 127) :
    min (t.strlenBuf : Int) n = min n content.length ∧
      bytesAt t.bufView (min (t.strlenBuf : Int) n).toNat = content.take (min n content.length).toNat := by
  obtain ⟨hle, heq⟩ := h.strlenBuf
  have hlen := h.length_le
  have hidx : t.bufIdx = content.length := h.idx
  have hmin : min (t.strlenBuf : Int) n = min n content.length := by
    by_cases hfull : content.length ≤ 127
    · rw [heq hfull, min_comm]
    · omega
  rw [hmin]
  refine ⟨rfl, ?_⟩
  rw [← h.holds.map_range (show (min n content.length).toNat ≤ content.length by omega)]
  apply List.map_congr_left
  intro i hi
  have := List.mem_range.mp hi
  exact t.bufView_of_lt (by omega)

theorem contains_clear (l : Line) : Contains l.clear [] where
  holds := Holds.nil fun _ hi => if_pos hi
  idx := rfl
  nonzero := List.not_mem_nil

/-! ## The operations of the editor -/

theorem LineState.contains_typed (h : LineState l g) (hflag : l.flag = 0) :
    Contains l g.typed ∧ g.typed.length ≤ 127 ∧ g.lines.length = g.reads.length := by
  cases h with
  | editing _ content room read => exact ⟨content, room, read⟩
  | submitted _ _ flag => exact absurd (hflag.symm.trans flag) (by decide)

/-- A character key: the character is stored and displayed, or there is no room for it. -/
theorem LineState.type (h : LineState l g) {c : UInt8} (hc : 126 < l.idx ∨ c ≠ 0 ∧ l.flag = 0) :
    LineState (l.type c) (if c ≠ 0 ∧ l.idx ≤ 126 then { g with typed := g.typed ++ [c] } else g) := by
  by_cases hroom : l.idx ≤ 126
  · obtain ⟨hc0, hflag⟩ := hc.resolve_left (by omega)
    obtain ⟨hcontent, -, hread⟩ := h.contains_typed hflag
    have hidx := hcontent.idx
    rw [Line.type, if_pos hroom, if_pos ⟨hc0, hroom⟩]
    refine .editing hflag (hcontent.push (by omega) hc0) ?_ hread
    rw [List.length_append, List.length_singleton]
    omega
  · rw [Line.type, if_neg hroom, if_neg fun hand => hroom hand.2]
    exact h

theorem LineState.erase (h : LineState l g) (hflag : l.flag = 0) :
    LineState l.erase { g with typed := g.typed.dropLast } := by
  obtain ⟨hcontent, hroom, hread⟩ := h.contains_typed hflag
  refine .editing ?_ hcontent.erase ?_ hread
  · unfold Line.erase
    split_ifs
    · exact hflag
    · exact hflag
  · rw [List.length_dropLast]
    omega

theorem LineState.enter (h : LineState l g) (hflag : l.flag = 0) (row : Int) :
    LineState { l.enter with row := row }
      { g with typed := [], lines := g.lines ++ [g.typed ++ [chNewline]] } := by
  obtain ⟨hcontent, hroom, hread⟩ := h.contains_typed hflag
  have hpush := hcontent.push (by omega) (show chNewline ≠ 0 by decide)
  exact .submitted (g.typed ++ [chNewline]) g.lines rfl ⟨hpush.holds, hpush.idx, hpush.nonzero⟩ rfl rfl hread

/-- The line that a read finds, and the state after it. -/
theorem LineState.read (h : LineState l g) (hflag : l.flag ≠ 0) : ∃ line, Contains l line ∧
    g.lines[g.reads.length]? = some line ∧
    ∀ r, LineState l.clear { g with reads := g.reads ++ [r] } := by
  cases h with
  | editing flag => exact absurd flag hflag
  | submitted line before _ content typed lines read =>
    refine ⟨line, content, ?_, fun r => .editing rfl ?_ ?_ ?_⟩
    · rw [lines, ← read, List.getElem?_concat_length]
    · rw [typed]
      exact contains_clear l
    · rw [typed]
      exact Nat.zero_le _
    · rw [lines, List.length_append, List.length_append, read]
      rfl

/-! ## Keys -/

variable {t : Fin 3} {k k' : Kernel}

/-- After its `switch`, the handler leaves the terminals alone. -/
theorem keyboardHandler_tty {scancode : UInt8} {stale : Nat → UInt8} {fmt : List UInt8 → List UInt8}
    {halts : Bool} (h : keyboardHandler k scancode stale fmt = some (k', halts)) :
    k' = k ∧ scancode > 0xD8 ∨
      ∃ k₁, dispatchKey k scancode stale fmt = some k₁ ∧ k'.toTty = k₁.toTty := by
  unfold keyboardHandler at h
  split_ifs at h with hsc
  · cases h
    exact Or.inl ⟨rfl, hsc⟩
  · obtain ⟨k₁, hk₁, h⟩ := Option.map_eq_some_iff.mp h
    refine Or.inr ⟨k₁, hk₁, ?_⟩
    obtain ⟨d, hd⟩ := sendEoi_devicesOnly k₁ keyboardIrqLine
    rw [hd] at h
    dsimp only at h
    split_ifs at h
    · cases h
      rfl
    · cases h
      rfl

theorem lineStep_isSome_of_dispatch {scancode : UInt8} {stale : Nat → UInt8} {fmt : List UInt8 → List UInt8}
    (h : dispatchKey k scancode stale fmt = some k') : (lineStep k (.key scancode stale fmt)).isSome := by
  rw [lineStep, keyboardHandler]
  split_ifs
  · rfl
  · rw [h]
    rfl

/-- A key that is neither Ctrl nor Alt with another. -/
theorem processKey_eq (hctrl : k.ctrlPressed = false) (halt : k.altPressed = false) (scancode : UInt8) :
    processKey k scancode = match letterPressed k scancode with
      | none => some k
      | some c => typeLetter k c := by
  unfold processKey letterPressed
  by_cases hrel : scancode &&& 0x80 ≠ 0
  · rw [if_pos hrel, if_pos (Or.inl hrel)]
  · by_cases hrow : scancode.toNat / 16 > 3
    · rw [if_neg hrel, if_pos hrow, if_pos (Or.inr hrow)]
    · rw [if_neg hrel, if_neg hrow, if_neg (not_or.mpr ⟨hrel, hrow⟩), if_neg (by rw [hctrl]; decide),
        if_neg (by rw [halt]; decide)]

/-! ## Steps and runs -/

/-- A submitted line does not change the lines before it. -/
theorem ReadsLines.append_line (h : ReadsLines g) {typed line : List UInt8} :
    ReadsLines { g with typed := typed, lines := g.lines ++ [line] } := by
  intro i n v bytes hi
  obtain ⟨line', hl, hrest⟩ := h i n v bytes hi
  refine ⟨line', ?_, hrest⟩
  rw [List.getElem?_append_left (List.getElem?_eq_some_iff.mp hl).1]
  exact hl

/-- One more read, of the line with its number. -/
theorem ReadsLines.append_read (h : ReadsLines g) {line : List UInt8} (hline : g.lines[g.reads.length]? = some line)
    (hlen : line.length ≤ 128) {n v : Int} (hv : v = min n line.length) {bytes : List UInt8}
    (hbytes : bytes = line.take v.toNat) : ReadsLines { g with reads := g.reads ++ [(n, v, bytes)] } := by
  intro i n' v' bytes' hi
  dsimp only at hi
  rcases Nat.lt_trichotomy i g.reads.length with hlt | heq | hgt
  · rw [List.getElem?_append_left hlt] at hi
    exact h i n' v' bytes' hi
  · rw [heq, List.getElem?_concat_length] at hi
    cases hi
    exact ⟨line, heq ▸ hline, hlen, hv, hbytes⟩
  · rw [List.getElem?_eq_none (by rw [List.length_append]; exact hgt)] at hi
    cases hi

theorem keyCase_high : ∀ n : Fin 256, UInt8.ofNat n.val > 0xD8 →
    keyCase (UInt8.ofNat n.val) = .other ∧ UInt8.ofNat n.val &&& 0x80 ≠ 0 := by decide +kernel

/-- The handler drops the scancodes above `0xD8`, which are releases. -/
theorem letterPressed_high {scancode : UInt8} (h : scancode > 0xD8) :
    keyCase scancode = .other ∧ letterPressed k scancode = none := by
  have hn := keyCase_high ⟨scancode.toNat, scancode.toNat_lt⟩
  rw [UInt8.ofNat_toNat] at hn
  exact ⟨(hn h).1, if_pos (Or.inl (hn h).2)⟩

/-- The new line of the terminal decides. -/
theorem LineInv.of_line {l : Line} (hl : (k'.terminals t).line = l) (hrow : 0 ≤ l.row) (hstate : LineState l g)
    (hreads : ReadsLines g) : LineInv t k' g := by
  subst hl
  exact ⟨hrow, hstate, hreads⟩

theorem LineInv.bufIdx_range (h : LineInv t k g) : 0 ≤ (k.terminals t).bufIdx ∧ (k.terminals t).bufIdx ≤ 128 := by
  have hidx : ∀ content, Contains (k.terminals t).line content →
      0 ≤ (k.terminals t).bufIdx ∧ (k.terminals t).bufIdx ≤ 128 := by
    intro content hc
    have hlen := hc.length_le
    have : (k.terminals t).bufIdx = content.length := hc.idx
    omega
  cases h.state with
  | editing _ content => exact hidx _ content
  | submitted _ _ _ content => exact hidx _ content

theorem Line.type_row (l : Line) (c : UInt8) : (l.type c).row = l.row := by
  unfold Line.type
  split_ifs <;> rfl

theorem Line.erase_row (l : Line) : l.erase.row = l.row := by
  unfold Line.erase
  split_ifs <;> rfl

/-- The `switch` of the handler has a result, which makes the step that the observer notes. -/
theorem LineInv.dispatch (h : LineInv t k g) {scancode : UInt8} {stale : Nat → UInt8}
    {fmt : List UInt8 → List UInt8} (hd : Delivered t k (.key scancode stale fmt))
    (hr : LineReady t k (.key scancode stale fmt)) : ∃ k₁, dispatchKey k scancode stale fmt = some k₁ ∧
      ∀ k', k'.terminals = k₁.terminals → LineInv t k' (noteLine g k (.key scancode stale fmt) k') := by
  obtain ⟨rfl, hctrl, halt, hcase⟩ := hd
  obtain ⟨h0, h128⟩ := h.bufIdx_range
  rw [LineReady] at hr
  simp only [dispatchKey, noteLine]
  rcases hcase with hcase | hcase | hcase
  · rw [hcase] at hr ⊢
    dsimp only at hr ⊢
    rw [processKey_eq hctrl halt]
    cases hletter : letterPressed k scancode with
    | none => exact ⟨k, rfl, fun k' hk' => .of_line (by rw [hk']) h.row h.state h.reads⟩
    | some c =>
      obtain ⟨k₁, hk₁, hl⟩ := typeLetter_line k h0 c
      refine ⟨k₁, hk₁, fun k' hk' => .of_line (hk' ▸ hl.2) ?_ (h.state.type (hr c hletter)) ?_⟩
      · rw [Line.type_row]
        exact h.row
      · show ReadsLines (if c ≠ 0 ∧ k.term.bufIdx ≤ 126 then { g with typed := g.typed ++ [c] } else g)
        split_ifs
        · exact h.reads
        · exact h.reads
  · rw [hcase] at hr ⊢
    obtain ⟨k₁, hk₁, hl⟩ := backspaceKey_line k h0 h128
    refine ⟨k₁, hk₁, fun k' hk' => .of_line (hk' ▸ hl.2) ?_ (h.state.erase hr) h.reads⟩
    rw [Line.erase_row]
    exact h.row
  · rw [hcase] at hr ⊢
    obtain ⟨hcontent, hroom, -⟩ := h.state.contains_typed hr
    have hidx : k.term.bufIdx = g.typed.length := hcontent.idx
    obtain ⟨k₁, row, hk₁, hrow, hl⟩ := keyboardReturn_line k h.row h0 (by omega)
    exact ⟨k₁, hk₁, fun k' hk' => .of_line (hk' ▸ hl.2) hrow (h.state.enter hr row) h.reads.append_line⟩

theorem LineInv.key (h : LineInv t k g) {scancode : UInt8} {stale : Nat → UInt8} {fmt : List UInt8 → List UInt8}
    {halts : Bool} (hd : Delivered t k (.key scancode stale fmt)) (hr : LineReady t k (.key scancode stale fmt))
    (hk : keyboardHandler k scancode stale fmt = some (k', halts)) :
    LineInv t k' (noteLine g k (.key scancode stale fmt) k') := by
  rcases keyboardHandler_tty hk with ⟨rfl, hhigh⟩ | ⟨k₁, hk₁, htty⟩
  · obtain ⟨hother, hnone⟩ := letterPressed_high (k := k') hhigh
    rw [noteLine, hother, hnone]
    exact h
  · obtain ⟨k₂, hk₂, hinv⟩ := h.dispatch hd hr
    obtain rfl : k₁ = k₂ := Option.some.inj (hk₁.symm.trans hk₂)
    exact hinv k' (congrArg Tty.terminals htty)

/-- The handler returns. -/
theorem LineInv.key_isSome (h : LineInv t k g) {scancode : UInt8} {stale : Nat → UInt8}
    {fmt : List UInt8 → List UInt8} (hd : Delivered t k (.key scancode stale fmt))
    (hr : LineReady t k (.key scancode stale fmt)) : (lineStep k (.key scancode stale fmt)).isSome := by
  obtain ⟨k₁, hk₁, -⟩ := h.dispatch hd hr
  exact lineStep_isSome_of_dispatch hk₁

/-- A line that was submitted can be read. -/
theorem LineInv.read_isSome (h : LineInv t k g) (hpending : g.reads.length < g.lines.length)
    (hs : k.scheduledProcess = t) {n : Int} (hn : 0 < n) : (lineStep k (.read n)).isSome := by
  have hflag : (k.terminals t).keyFlag ≠ 0 := by
    intro h0
    obtain ⟨-, -, hread⟩ := h.state.contains_typed h0
    omega
  subst hs
  rw [lineStep, terminalRead, if_neg (by simp only [Bool.false_eq_true, or_false, not_le]; exact hn)]
  dsimp only
  rw [if_neg hflag]
  rfl

theorem LineInv.read (h : LineInv t k g) {n : Int} (hd : Delivered t k (.read n)) (hr : LineReady t k (.read n))
    {v : Int} {bytes : List UInt8} (hk : terminalRead k false n = some (k', v, bytes)) :
    LineInv t k' (noteLine g k (.read n) k') := by
  obtain ⟨rfl, hn⟩ := hd
  obtain ⟨hflag, hv, hbytes, -, hline, -⟩ := terminalRead_line hn hk
  obtain ⟨line, hcontent, hnumber, hstate⟩ := h.state.read hflag
  obtain ⟨hmin, htake⟩ := hcontent.read hn hr
  rw [noteLine, hk]
  refine .of_line hline h.row (hstate _) (h.reads.append_read hnumber hcontent.length_le (hv.trans hmin) ?_)
  rw [hbytes, hv, htake, hmin]

theorem LineInv.step (h : LineInv t k g) {e : LineEvent} (hd : Delivered t k e) (hr : LineReady t k e)
    (hk : lineStep k e = some k') : LineInv t k' (noteLine g k e k') := by
  cases e with
  | key scancode stale fmt =>
    obtain ⟨⟨k₁, halts⟩, hk₁, rfl⟩ := Option.map_eq_some_iff.mp hk
    exact h.key hd hr hk₁
  | read n =>
    obtain ⟨⟨k₁, v, bytes⟩, hk₁, rfl⟩ := Option.map_eq_some_iff.mp hk
    exact h.read hd hr hk₁
  | elsewhere k₁ =>
    cases hk
    exact .of_line hd h.row h.state h.reads

theorem lineInv_initialBoot (t : Fin 3) (k : Kernel) (local_ : Fin 3 → Term) :
    LineInv t (initialBoot k local_) .empty where
  row := le_refl 0
  state := .editing rfl ⟨Holds.nil fun _ hi => if_pos hi, rfl, List.not_mem_nil⟩ (Nat.zero_le _) rfl
  reads _ _ _ _ hi := by cases hi

/-! ## Runs -/

/-- The terminals after boot, with zeros on the stack. -/
def zeroBoot : Kernel := initialBoot (Kernel.atLoad FileSystem.shellImage) fun _ => Term.zeroed

/-- Decides that an event of the terminal is delivered to it. -/
def deliveredCheck (t : Fin 3) (k : Kernel) : LineEvent → Bool
  | .key scancode _ _ => k.currTerm = t ∧ k.ctrlPressed = false ∧ k.altPressed = false ∧
      (keyCase scancode = .other ∨ keyCase scancode = .backspace ∨ keyCase scancode = .enter)
  | .read nbytes => k.scheduledProcess = t ∧ 0 < nbytes
  | .elsewhere _ => false

/-- Decides that a line is being edited, and the key has a character; or that a read asks for at most a line. -/
def readyCheck (t : Fin 3) (k : Kernel) : LineEvent → Bool
  | .key scancode _ _ =>
    (k.terminals t).keyFlag = 0 ∧ (keyCase scancode = .other → letterPressed k scancode ≠ some 0)
  | .read nbytes => nbytes ≤ 128
  | .elsewhere _ => false

theorem deliveredCheck_sound {e : LineEvent} (h : deliveredCheck t k e = true) : Delivered t k e := by
  cases e with
  | key scancode stale fmt =>
    have hkey := of_decide_eq_true h
    exact hkey
  | read n =>
    have hread := of_decide_eq_true h
    exact hread
  | elsewhere k₁ => cases h

theorem readyCheck_sound {e : LineEvent} (h : readyCheck t k e = true) : LineReady t k e := by
  cases e with
  | key scancode stale fmt =>
    obtain ⟨hflag, hletter⟩ := of_decide_eq_true h
    rw [LineReady]
    split
    · exact hflag
    · exact hflag
    · exact fun c hc => Or.inr ⟨fun h0 => hletter ‹_› (h0 ▸ hc), hflag⟩
    · trivial
  | read n => exact Or.inl (of_decide_eq_true h)
  | elsewhere k₁ => cases h

/-- A key, with zeros on the stack. -/
def plainKey (scancode : UInt8) : LineEvent := .key scancode (fun _ => 0) id

/-- The kernel and the log after a list of events. -/
def lineRun (check : Kernel → LineEvent → Bool) (es : List LineEvent) : Option (Kernel × LineLog) :=
  es.foldlM (fun p e => if check p.1 e = true then observed lineStep noteLine p e else none) (zeroBoot, .empty)

theorem lineRun_reach (check : Kernel → LineEvent → Bool) {ok : Kernel → LineEvent → Prop}
    (hcheck : ∀ k e, check k e = true → ok k e) (es : List LineEvent) {log : LineLog}
    (h : (lineRun check es).map Prod.snd = some log) :
    ∃ k, Reach (observed lineStep noteLine) (fun p e => ok p.1 e) (zeroBoot, .empty) (k, log) := by
  obtain ⟨⟨k, g⟩, hrun, rfl⟩ := Option.map_eq_some_iff.mp h
  exact ⟨k, Reach.of_foldlM (fun (p : Kernel × LineLog) e => check p.1 e) (fun p e => hcheck p.1 e) es (.refl _) hrun⟩

/-- **Line discipline.** From boot, in every run of the keys of a terminal, the reads of its process and steps
elsewhere that meet the condition, each read returned the line of its number. No key that meets the condition is
stuck, and a line that was submitted can be read. -/
theorem lines_read {t : Fin 3} {k₀ k : Kernel} {local_ : Fin 3 → Term} {g : LineLog}
    (h : Reach (observed lineStep noteLine) (fun p e => Delivered t p.1 e ∧ LineReady t p.1 e)
      (initialBoot k₀ local_, .empty) (k, g)) :
    ReadsLines g ∧
    (∀ scancode stale fmt, Delivered t k (.key scancode stale fmt) → LineReady t k (.key scancode stale fmt) →
      (lineStep k (.key scancode stale fmt)).isSome) ∧
    (g.reads.length < g.lines.length → k.scheduledProcess = t → ∀ n, 0 < n → (lineStep k (.read n)).isSome) := by
  have hinv : LineInv t k g := by
    apply h.invariant (I := fun p => LineInv t p.1 p.2) (lineInv_initialBoot t k₀ local_)
    intro p e q hi hok hs
    obtain ⟨hstep, hg⟩ := observed_eq_some.mp hs
    rw [hg]
    exact hi.step hok.1 hok.2 hstep
  exact ⟨hinv.reads, fun _ _ _ hd hr => hinv.key_isSome hd hr, fun hp hs n hn => hinv.read_isSome hp hs hn⟩

/-- A line with an erased character, read; an empty line, read. -/
theorem lines_read_two : ∃ k,
    Reach (observed lineStep noteLine) (fun p e => Delivered 0 p.1 e ∧ LineReady 0 p.1 e) (zeroBoot, .empty)
      (k, ⟨[], [[97, 10], [10]], [(128, 2, [97, 10]), (1, 1, [10])]⟩) ∧
    ReadsLines ⟨[], [[97, 10], [10]], [(128, 2, [97, 10]), (1, 1, [10])]⟩ := by
  have hsound : ∀ k e, (deliveredCheck 0 k e && readyCheck 0 k e) = true → Delivered 0 k e ∧ LineReady 0 k e := by
    intro k e h
    obtain ⟨hd, hr⟩ := Bool.and_eq_true_iff.mp h
    exact ⟨deliveredCheck_sound hd, readyCheck_sound hr⟩
  obtain ⟨k, hrun⟩ := lineRun_reach _ hsound
    [plainKey 0x1E, plainKey 0x30, plainKey scBackspace, plainKey scEnter, .read 128, plainKey scEnter, .read 1]
    (show _ = some ⟨[], [[97, 10], [10]], [(128, 2, [97, 10]), (1, 1, [10])]⟩ by decide +kernel)
  exact ⟨k, hrun, (lines_read hrun).1⟩

/-- Keys that are delivered and no more: two lines submitted before the read are merged; Esc before a line hides
it; and a full line read with a large buffer has the index of its end after it. -/
theorem lines_merged :
    (∃ k, Reach (observed lineStep noteLine) (fun p e => Delivered 0 p.1 e) (zeroBoot, .empty)
      (k, ⟨[], [[97, 10], [98, 10]], [(128, 4, [97, 10, 98, 10])]⟩)) ∧
    ¬ ReadsLines ⟨[], [[97, 10], [98, 10]], [(128, 4, [97, 10, 98, 10])]⟩ ∧
    (∃ k, Reach (observed lineStep noteLine) (fun p e => Delivered 0 p.1 e) (zeroBoot, .empty)
      (k, ⟨[], [[97, 10]], [(128, 0, [])]⟩)) ∧
    ¬ ReadsLines ⟨[], [[97, 10]], [(128, 0, [])]⟩ ∧
    (∃ k, Reach (observed lineStep noteLine) (fun p e => Delivered 0 p.1 e) (zeroBoot, .empty)
      (k, ⟨[], [List.replicate 127 97 ++ [10]], [(200, 129, List.replicate 127 97 ++ [10, 128])]⟩)) ∧
    ¬ ReadsLines ⟨[], [List.replicate 127 97 ++ [10]], [(200, 129, List.replicate 127 97 ++ [10, 128])]⟩ := by
  have hwrong : ∀ {line : List UInt8} {lines : List (List UInt8)} {n v : Int} {bytes : List UInt8},
      v ≠ min n line.length → ¬ ReadsLines ⟨[], line :: lines, [(n, v, bytes)]⟩ := by
    intro line lines n v bytes hv h
    obtain ⟨line', hline, -, hv', -⟩ := h 0 n v bytes rfl
    cases hline
    exact hv hv'
  have hreach := lineRun_reach (deliveredCheck 0) fun _ _ => deliveredCheck_sound
  refine ⟨hreach [plainKey 0x1E, plainKey scEnter, plainKey 0x30, plainKey scEnter, .read 128] (by decide +kernel),
    hwrong (by decide),
    hreach [plainKey 0x01, plainKey 0x1E, plainKey scEnter, .read 128] (by decide +kernel),
    hwrong (by decide),
    hreach (List.replicate 127 (plainKey 0x1E) ++ [plainKey scEnter, .read 200]) (by decide +kernel),
    hwrong (by decide +kernel)⟩

end BasicOs
