import BasicOs.Lib.BoundedStack
import BasicOs.LineDiscipline

/-!
# The line editor as a stack

The calls of `add_to_buf` and `delete_from_buf` as `process_key` and the handler issue them, against a stack of at most
127 characters.

* `EditorCall`, `EditorCall.onStack` : the calls, and what they are for;
* `issueCall`, `callIndices` : a call with the test before it, and the indices of `keyboard_buf` it stores to;
* `IsStack` : the line of a terminal is the stack, with NULs behind it;
* `handler_stack` : in runs of the handler the line is the stack of the calls its keys issued;
* `editor_stack_iff` : from a cleared buffer the line is the stack after every sequence of calls; every index is in
  `[0, 127]` exactly if no `delete_from_buf` comes when the line is empty.
-/

namespace BasicOs
open Bytes Run LineBuffer

/-! ## Calls -/

/-- A character that can be on the line. -/
abbrev Letter : Type := {c : UInt8 // c ≠ 0}

abbrev LineStack : Type := BoundedStack Letter 127

def LineStack.chars (s : LineStack) : List UInt8 := s.items.map Subtype.val

inductive EditorCall
  | addToBuf (letter : Letter)
  | deleteFromBuf

/-- What a call is for. -/
def EditorCall.onStack (s : LineStack) : EditorCall → LineStack
  | .addToBuf letter => s.push letter
  | .deleteFromBuf => s.pop

/-- The stack after the calls. -/
def stackOf (calls : List EditorCall) : LineStack := calls.foldl EditorCall.onStack (BoundedStack.empty Letter 127)

/-- A call where it is issued: at the end of `process_key`, or in the `case BACKSPACE` of the handler. -/
def issueCall (k : Kernel) : EditorCall → Option Kernel
  | .addToBuf letter => typeLetter k letter.val
  | .deleteFromBuf => backspaceKey k

/-- The store `delete_from_buf` makes into the buffer: it takes one off the index before. -/
def deleteFromBufStores (t : Term) : List (Int × UInt8) := [(t.bufIdx - 1, 0)]

/-- The indices of `keyboard_buf` that a call stores to. -/
def callIndices (k : Kernel) : EditorCall → List Int
  | .addToBuf letter => if k.term.bufIdx ≤ 126 then (addToBufStores k.term letter.val).map Prod.fst else []
  | .deleteFromBuf => if k.term.bufIdx ≥ 0 then (deleteFromBufStores k.term).map Prod.fst else []

/-- The observer keeps the indices. -/
def noteIndices (used : List Int) (k : Kernel) (call : EditorCall) (_ : Kernel) : List Int := used ++ callIndices k call

/-- A sequence of calls, with the indices used. -/
def issueCalls (k : Kernel) (calls : List EditorCall) : Option (Kernel × List Int) :=
  calls.foldlM (observed issueCall noteIndices) (k, [])

/-- The line up to `buf_idx` is the stack, and what follows is NUL. -/
structure IsStack (t : Term) (s : LineStack) : Prop where
  top : t.bufIdx = s.items.length
  below : bytesAt t.keyboardBuf t.bufIdx.toNat = s.chars
  tail : ∀ i : Nat, t.bufIdx ≤ i → i < keyboardBufSize → t.keyboardBuf i = 0

/-- No `delete_from_buf` comes when none of the characters is left, from `n` on the line; a full line takes no more. -/
def DeletesTyped : Nat → List EditorCall → Prop
  | _, [] => True
  | n, .addToBuf _ :: calls => DeletesTyped (min (n + 1) 127) calls
  | n, .deleteFromBuf :: calls => 0 < n ∧ DeletesTyped (n - 1) calls

/-- An index into `keyboard_buf`. -/
def InsideBuf (i : Int) : Prop := 0 ≤ i ∧ i ≤ 127

/-- The calls leave the stack on the line, and use indices of the array only. -/
def EditsAsStack (k : Kernel) (calls : List EditorCall) : Prop :=
  ∃ k' used, issueCalls k calls = some (k', used) ∧ k'.currTerm = k.currTerm ∧ IsStack k'.term (stackOf calls) ∧
    ∀ i ∈ used, InsideBuf i

/-! ## One call -/

variable {k₀ k k' : Kernel} {s : LineStack}

/-- `delete_from_buf` makes that store, before it looks at the index. -/
theorem deleteFromBuf_stores (k : Kernel) : deleteFromBuf k =
    ((k.modifyTerm k.currTerm fun t => { t with bufIdx := t.bufIdx - 1 }).pokeAll k.currTerm
      (deleteFromBufStores k.term)).map fun k =>
        if k.term.bufIdx < 0 then k.modifyTerm k.currTerm fun t => { t with bufIdx := 0 } else k := by
  have hidx : (k.modifyTerm k.currTerm fun t => { t with bufIdx := t.bufIdx - 1 }).term.bufIdx = k.term.bufIdx - 1 :=
    congrArg Term.bufIdx (k.modifyTerm_terminals_self k.currTerm _)
  have hcurr : (k.modifyTerm k.currTerm fun t => { t with bufIdx := t.bufIdx - 1 }).currTerm = k.currTerm := rfl
  unfold deleteFromBuf deleteFromBufStores Kernel.pokeAll
  generalize k.modifyTerm k.currTerm (fun t => { t with bufIdx := t.bufIdx - 1 }) = k₁ at hidx hcurr
  dsimp only
  rw [hidx, hcurr, List.foldlM_cons]
  cases k₁.pokeBuf k.currTerm (k.term.bufIdx - 1) 0 with
  | none => rfl
  | some k₂ =>
    simp only [bind, pure, List.foldlM_nil, Option.bind_some, Option.map_some]
    split_ifs <;> rfl

/-- The displayed terminal is still that of `k₀`, and its line holds the stack. -/
structure Mirrors (k₀ k : Kernel) (s : LineStack) : Prop where
  shown : k.currTerm = k₀.currTerm
  content : Contains k.term.line s.chars

theorem LineStack.length_chars (s : LineStack) : (LineStack.chars s).length = s.items.length := List.length_map _

theorem Mirrors.bufIdx_eq (h : Mirrors k₀ k s) : k.term.bufIdx = s.items.length := by
  rw [← LineStack.length_chars]
  exact h.content.idx

theorem Mirrors.of_lineIs {l : Line} (h : Mirrors k₀ k s) {s' : LineStack} (hl : LineIs k k' l)
    (hcontent : Contains l s'.chars) : Mirrors k₀ k' s' := by
  refine ⟨hl.1.trans h.shown, ?_⟩
  rw [hl.term_line]
  exact hcontent

theorem Mirrors.isStack (h : Mirrors k₀ k s) : IsStack k.term s where
  top := h.bufIdx_eq
  below := by
    have hlen : k.term.bufIdx.toNat = s.chars.length := by
      rw [h.bufIdx_eq, LineStack.length_chars]
      rfl
    rw [hlen]
    exact (h.content.holds.map_range (le_refl _)).trans (List.take_length)
  tail i hi hlt := by
    rw [h.bufIdx_eq, ← LineStack.length_chars] at hi
    exact (h.content.holds.2 i hlt).trans (List.getD_eq_default _ _ (Int.ofNat_le.mp hi))

/-- A call has a result, and does to the line what it is for. -/
theorem Mirrors.step (h : Mirrors k₀ k s) (call : EditorCall) :
    ∃ k', issueCall k call = some k' ∧ Mirrors k₀ k' (call.onStack s) := by
  have hidx := h.bufIdx_eq
  have hbound := s.bounded
  cases call with
  | addToBuf letter =>
    obtain ⟨k', hk', hl⟩ := typeLetter_line k (by omega) letter.val
    refine ⟨k', hk', h.of_lineIs hl ?_⟩
    have hline : k.term.line.idx = s.items.length := hidx
    unfold Line.type
    by_cases hroom : s.items.length < 127
    · have hchars : LineStack.chars (s.push letter) = s.chars ++ [letter.val] := by
        unfold LineStack.chars
        rw [BoundedStack.items_push_of_room hroom, List.map_append]
        rfl
      rw [if_pos (by omega), EditorCall.onStack, hchars]
      exact h.content.push (by rw [LineStack.length_chars]; omega) letter.property
    · rw [if_neg (by omega), EditorCall.onStack, BoundedStack.push_of_full hroom]
      exact h.content
  | deleteFromBuf =>
    obtain ⟨k', hk', hl⟩ := backspaceKey_line k (by omega) (by omega)
    refine ⟨k', hk', h.of_lineIs hl ?_⟩
    have hchars : LineStack.chars s.pop = s.chars.dropLast := by
      unfold LineStack.chars
      rw [BoundedStack.items_pop, List.map_dropLast]
    rw [EditorCall.onStack, hchars]
    exact h.content.erase

/-- The index of a call is in the array, but for a delete on the empty line. -/
theorem Mirrors.indices_iff (h : Mirrors k₀ k s) (call : EditorCall) :
    (∀ i ∈ callIndices k call, InsideBuf i) ↔ (call = .deleteFromBuf → 0 < s.items.length) := by
  have hidx := h.bufIdx_eq
  have hbound := s.bounded
  cases call with
  | addToBuf letter =>
    refine iff_of_true (fun i hi => ?_) nofun
    rw [callIndices] at hi
    split_ifs at hi with hroom
    · have hstores : addToBufStores k.term letter.val = [(k.term.bufIdx, letter.val)] := by
        unfold addToBufStores
        rw [if_pos (by simp only [keyboardBufSize]; omega)]
      rw [hstores, List.map_singleton, List.mem_singleton] at hi
      unfold InsideBuf
      omega
    · cases hi
  | deleteFromBuf =>
    have hone : callIndices k .deleteFromBuf = [k.term.bufIdx - 1] := by
      rw [callIndices, if_pos (by omega)]
      rfl
    rw [hone, List.forall_mem_singleton]
    unfold InsideBuf
    constructor
    · intro hin _
      omega
    · intro hpos
      have := hpos rfl
      omega

/-! ## Sequences of calls -/

/-- The condition, from one call to the next. -/
theorem deletesTyped_cons (s : LineStack) (call : EditorCall) (calls : List EditorCall) :
    DeletesTyped s.items.length (call :: calls) ↔
      (call = .deleteFromBuf → 0 < s.items.length) ∧ DeletesTyped (call.onStack s).items.length calls := by
  cases call with
  | addToBuf letter =>
    rw [DeletesTyped, EditorCall.onStack, BoundedStack.length_push]
    exact (and_iff_right nofun).symm
  | deleteFromBuf =>
    rw [DeletesTyped, EditorCall.onStack, BoundedStack.length_pop]
    simp only [forall_const]

theorem Mirrors.run (calls : List EditorCall) {k : Kernel} {s : LineStack} (h : Mirrors k₀ k s) (used : List Int) :
    ∃ k' used', calls.foldlM (observed issueCall noteIndices) (k, used) = some (k', used') ∧
      Mirrors k₀ k' (calls.foldl EditorCall.onStack s) ∧
      ((∀ i ∈ used', InsideBuf i) ↔ (∀ i ∈ used, InsideBuf i) ∧ DeletesTyped s.items.length calls) := by
  induction calls generalizing k s used with
  | nil => exact ⟨k, used, rfl, h, (and_iff_left trivial).symm⟩
  | cons call calls ih =>
    obtain ⟨k₁, hk₁, h₁⟩ := h.step call
    obtain ⟨k', used', hrun, h', hused⟩ := ih h₁ (used ++ callIndices k call)
    refine ⟨k', used', ?_, h', ?_⟩
    · have hstep : observed issueCall noteIndices (k, used) call = some (k₁, used ++ callIndices k call) := by
        unfold observed
        rw [hk₁]
        rfl
      rw [List.foldlM_cons, hstep]
      exact hrun
    · rw [hused, List.forall_mem_append, h.indices_iff call, deletesTyped_cons, and_assoc]

theorem mirrors_cleared (k : Kernel) :
    Mirrors k (clearKeyboardBuf k k.currTerm) (BoundedStack.empty Letter 127) where
  shown := rfl
  content := by
    have hline : (clearKeyboardBuf k k.currTerm).term.line = { k.term.line.clear with flag := k.term.keyFlag } := by
      unfold Kernel.term clearKeyboardBuf
      rw [show (k.modifyTerm k.currTerm _).currTerm = k.currTerm from rfl, Kernel.modifyTerm_terminals_self]
      rfl
    rw [hline]
    have hempty := contains_clear k.term.line
    exact ⟨hempty.holds, hempty.idx, hempty.nonzero⟩

/-! ## The handler -/

/-- The call that a key issues, with neither Ctrl nor Alt held. -/
def issued (k : Kernel) (scancode : UInt8) : Option EditorCall :=
  match keyCase scancode with
  | .backspace => some .deleteFromBuf
  | .other =>
    match letterPressed k scancode with
    | some c => if h : c ≠ 0 then some (.addToBuf ⟨c, h⟩) else none
    | none => none
  | _ => none

/-- Keys that edit the line, those that change Shift or Caps Lock, releases, and steps elsewhere. -/
def EditsLine (k : Kernel) : LineEvent → Prop
  | .key scancode _ _ => k.ctrlPressed = false ∧ k.altPressed = false ∧
    match keyCase scancode with
    | .backspace | .shift _ | .capsLock | .ignored => True
    | .other => letterPressed k scancode ≠ some 0
    | _ => False
  | .read _ => False
  | .elsewhere k' => k'.currTerm = k.currTerm ∧ k'.term.line = k.term.line

/-- The observer keeps the calls. -/
def noteCalls (calls : List EditorCall) (k : Kernel) (e : LineEvent) (_ : Kernel) : List EditorCall :=
  match e with
  | .key scancode _ _ => calls ++ (issued k scancode).toList
  | _ => calls

theorem Mirrors.congr (h : Mirrors k₀ k s) (htty : k'.toTty = k.toTty) : Mirrors k₀ k' s := by
  have hterm : k'.term = k.term := by
    unfold Kernel.term
    rw [htty]
  exact ⟨(congrArg Tty.currTerm htty).trans h.shown, hterm ▸ h.content⟩

theorem stackOf_append (calls calls' : List EditorCall) :
    stackOf (calls ++ calls') = calls'.foldl EditorCall.onStack (stackOf calls) := List.foldl_append

/-- What a key issues is what the handler does to the terminals. -/
theorem dispatchKey_issues {scancode : UInt8} {stale : Nat → UInt8} {fmt : List UInt8 → List UInt8}
    (he : EditsLine k (.key scancode stale fmt)) (hk : dispatchKey k scancode stale fmt = some k') :
    issued k scancode = none ∧ k'.toTty = k.toTty ∨
      ∃ call, issued k scancode = some call ∧ issueCall k call = some k' := by
  obtain ⟨hctrl, halt, hcase⟩ := he
  unfold dispatchKey at hk
  unfold issued
  cases hkey : keyCase scancode <;> rw [hkey] at hk hcase
  case backspace => exact Or.inr ⟨_, rfl, hk⟩
  case other =>
    dsimp only at hk hcase ⊢
    rw [processKey_eq hctrl halt] at hk
    cases hletter : letterPressed k scancode with
    | none =>
      rw [hletter] at hk
      cases hk
      exact Or.inl ⟨rfl, rfl⟩
    | some c =>
      have hc : c ≠ 0 := fun h0 => hcase (h0 ▸ hletter)
      rw [hletter] at hk
      exact Or.inr ⟨.addToBuf ⟨c, hc⟩, dif_pos hc, hk⟩
  case ctrl => cases hcase
  case alt => cases hcase
  case enter => cases hcase
  case tab => cases hcase
  case up => cases hcase
  case down => cases hcase
  all_goals
    cases hk
    exact Or.inl ⟨rfl, rfl⟩

theorem Mirrors.event {calls : List EditorCall} (h : Mirrors k₀ k (stackOf calls)) {e : LineEvent}
    (he : EditsLine k e) (hk : lineStep k e = some k') : Mirrors k₀ k' (stackOf (noteCalls calls k e k')) := by
  cases e with
  | key scancode stale fmt =>
    obtain ⟨⟨k₁, halts⟩, hk₁, rfl⟩ := Option.map_eq_some_iff.mp hk
    rw [noteCalls, stackOf_append]
    rcases keyboardHandler_tty hk₁ with ⟨rfl, hhigh⟩ | ⟨k₂, hk₂, htty⟩
    · obtain ⟨hother, hnone⟩ := letterPressed_high (k := k₁) hhigh
      unfold issued
      rw [hother, hnone]
      exact h
    · rcases dispatchKey_issues he hk₂ with ⟨hnone, hsame⟩ | ⟨call, hcall, hissue⟩
      · rw [hnone]
        exact h.congr (htty.trans hsame)
      · obtain ⟨k₃, hk₃, h₃⟩ := h.step call
        obtain rfl : k₂ = k₃ := Option.some.inj (hissue.symm.trans hk₃)
        rw [hcall]
        exact h₃.congr htty
  | read n => cases he
  | elsewhere k₁ =>
    cases hk
    exact ⟨he.1.trans h.shown, he.2 ▸ h.content⟩

/-- In a run of the handler the line is the stack of the calls that its keys issued. -/
theorem handler_stack {k₀ k : Kernel} {calls : List EditorCall}
    (h : Reach (observed lineStep noteCalls) (fun p e => EditsLine p.1 e) (clearKeyboardBuf k₀ k₀.currTerm, [])
      (k, calls)) : IsStack k.term (stackOf calls) := by
  have hinv : Mirrors k₀ k (stackOf calls) := by
    apply h.invariant (I := fun p => Mirrors k₀ p.1 (stackOf p.2)) (mirrors_cleared k₀)
    intro p e q hi hok hs
    obtain ⟨hstep, hcalls⟩ := observed_eq_some.mp hs
    rw [hcalls]
    exact hi.event hok hstep
  exact hinv.isStack

/-! ## The stack -/

/-- **The line is a stack.** After any sequence of calls on a cleared buffer, the line is the stack of the characters
added and not deleted, with NULs behind it; every index is in the array exactly if each delete finds a character. -/
theorem editor_stack_iff (k : Kernel) (calls : List EditorCall) :
    (∃ k' used, issueCalls (clearKeyboardBuf k k.currTerm) calls = some (k', used) ∧ IsStack k'.term (stackOf calls)) ∧
    (EditsAsStack (clearKeyboardBuf k k.currTerm) calls ↔ DeletesTyped 0 calls) := by
  obtain ⟨k', used, hrun, hmirrors, hused⟩ := (mirrors_cleared k).run calls []
  have hinside : (∀ i ∈ used, InsideBuf i) ↔ DeletesTyped 0 calls := by
    rw [hused]
    exact and_iff_right (fun _ hi => (nomatch hi))
  refine ⟨⟨k', used, hrun, hmirrors.isStack⟩, ?_⟩
  rw [← hinside]
  constructor
  · rintro ⟨k₁, used₁, hrun₁, -, -, hin⟩
    obtain ⟨-, rfl⟩ := Prod.mk.inj (Option.some.inj (hrun.symm.trans hrun₁))
    exact hin
  · exact fun hin => ⟨k', used, hrun, hmirrors.shown, hmirrors.isStack, hin⟩

/-- Backspace on a cleared buffer: the handler issues the call, and the NUL goes before the array. -/
theorem delete_before_buffer :
    issued zeroBoot scBackspace = some .deleteFromBuf ∧
    callIndices (clearKeyboardBuf zeroBoot 0) .deleteFromBuf = [-1] ∧
    ¬ EditsAsStack (clearKeyboardBuf zeroBoot 0) [.deleteFromBuf] := by
  refine ⟨rfl, by decide +kernel, ?_⟩
  rintro ⟨k', used, hrun, -, -, hin⟩
  have hused : (issueCalls (clearKeyboardBuf zeroBoot 0) [.deleteFromBuf]).map Prod.snd = some [-1] := by decide +kernel
  rw [hrun, Option.map_some, Option.some_inj] at hused
  obtain ⟨h0, -⟩ := hin (-1) (by rw [show used = [-1] from hused]; exact List.mem_singleton_self _)
  exact absurd h0 (by decide)

end BasicOs
